import StoryTemplate.Text.Basic

/-! # Injection expressions

    An injection expression is an opening brace and `>`, a word with at most one
    white space on either side, and a closing brace.  The word names the
    injection whose value stands in for the expression.

    The pattern is the regular expression `\{>\s?([A-Za-z0-9_]+)\s?\}`, and
    `findInjection?` stands for the leftmost search of a regular-expression engine.
    This is assumed of the engine: `\s` is the Unicode property White_Space
    (`isBlank`), the first match is one that begins earliest, and what follows a match
    is searched next.  As the classes of the pattern have no character in common, at
    most one match begins at a place, and greediness plays no part.

    Main facts: `length_lt_of_injectionAt` (an expression is not empty) and
    `length_lt_of_findInjection` (so a search leaves a shorter text to search),
    which by `suffix_of_findInjection` is an end of the text. -/

namespace StoryTemplate

/-- The text without the one white space that may stand at its beginning. -/
def dropBlank : Text → Text
  | [] => []
  | c :: rest => if isBlank c then rest else c :: rest

/-- The name in the injection expression at the beginning of the text, with the
    text after the expression. -/
def injectionAt? : Text → Option (Text × Text)
  | '\x7b' :: '>' :: inner =>
    let body := dropBlank inner
    let name := body.takeWhile isWord
    match name, dropBlank (body.dropWhile isWord) with
    | _ :: _, '\x7d' :: rest => some (name, rest)
    | _, _ => none
  | _ => none

/-- An injection expression in a text, with the text around it. -/
structure InjectionMatch where
  before : Text
  name : Text
  after : Text
  deriving DecidableEq, Repr

/-- The first injection expression of the text. -/
def findInjection? : Text → Option InjectionMatch
  | [] => none
  | c :: rest =>
    match injectionAt? (c :: rest) with
    | some (name, after) => some ⟨[], name, after⟩
    | none => (findInjection? rest).map fun found => { found with before := c :: found.before }

theorem length_dropBlank_le (s : Text) : (dropBlank s).length ≤ s.length := by
  cases s with
  | nil => exact Nat.le_refl _
  | cons c rest =>
    simp only [dropBlank]
    split <;> simp

/-- An injection expression takes up at least one character. -/
theorem length_lt_of_injectionAt {s name rest : Text} (h : injectionAt? s = some (name, rest)) :
    rest.length < s.length := by
  unfold injectionAt? at h
  split at h
  · rename_i inner
    simp only at h
    split at h
    · rename_i hrest
      simp only [Option.some.injEq, Prod.mk.injEq] at h
      have hlen := congrArg List.length hrest
      have h₁ := length_dropBlank_le ((dropBlank inner).dropWhile isWord)
      have h₂ := (List.dropWhile_sublist (l := dropBlank inner) isWord).length_le
      have h₃ := length_dropBlank_le inner
      simp only [List.length_cons] at hlen ⊢
      rw [h.2] at hlen
      omega
    · simp at h
  · simp at h

/-- A search leaves a shorter text to search. -/
theorem length_lt_of_findInjection {s : Text} {found : InjectionMatch}
    (h : findInjection? s = some found) : found.after.length < s.length := by
  induction s generalizing found with
  | nil => simp [findInjection?] at h
  | cons c rest ih =>
    unfold findInjection? at h
    split at h
    · rename_i name after hat
      simp only [Option.some.injEq] at h
      exact h ▸ length_lt_of_injectionAt hat
    · obtain ⟨inner, hinner, rfl⟩ := Option.map_eq_some_iff.1 h
      have := ih hinner
      exact Nat.lt_succ_of_lt this

/-- What follows an injection expression ends the text that it begins. -/
theorem suffix_of_injectionAt {s name rest : Text} (h : injectionAt? s = some (name, rest)) :
    rest <:+ s := by
  have blank : ∀ t : Text, dropBlank t <:+ t := fun t => by
    cases t with
    | nil => exact List.suffix_refl _
    | cons c r =>
      simp only [dropBlank]
      split
      · exact List.suffix_cons _ _
      · exact List.suffix_refl _
  unfold injectionAt? at h
  split at h
  · rename_i inner
    simp only at h
    split at h
    · rename_i hrest
      simp only [Option.some.injEq, Prod.mk.injEq] at h
      rw [h.2] at hrest
      have hin : rest <:+ inner :=
        (List.suffix_cons _ _).trans <| (hrest ▸ blank _).trans <|
          (List.dropWhile_suffix _).trans (blank inner)
      exact hin.trans ((List.suffix_cons _ _).trans (List.suffix_cons _ _))
    · simp at h
  · simp at h

/-- What follows the expression that a search finds ends the searched text. -/
theorem suffix_of_findInjection {s : Text} {found : InjectionMatch}
    (h : findInjection? s = some found) : found.after <:+ s := by
  induction s generalizing found with
  | nil => simp [findInjection?] at h
  | cons c rest ih =>
    unfold findInjection? at h
    split at h
    · rename_i name after hat
      simp only [Option.some.injEq] at h
      exact h ▸ suffix_of_injectionAt hat
    · obtain ⟨inner, hinner, rfl⟩ := Option.map_eq_some_iff.1 h
      have := ih hinner
      exact this.trans (List.suffix_cons _ _)

end StoryTemplate
