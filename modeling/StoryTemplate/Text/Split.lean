import StoryTemplate.Text.Basic

/-! # Splitting texts

    Two kinds of cuts: at a single character, and at the first occurrence of
    a needle of several characters.

    Main facts: `breakOn_eq_some` (a cut loses nothing but the needle),
    `splitFirst_eq_some` (the same for a single character, which the first part
    does not hold) and `joinWith_splitAll` (the parts joined again give back the
    text). -/

namespace StoryTemplate

/-! ## Cuts at a character -/

/-- The parts of the text between the occurrences of `sep`; a text without
    `sep` is one part. -/
def splitAll (sep : Char) : Text → List Text
  | [] => [[]]
  | c :: r =>
    if c = sep then [] :: splitAll sep r
    else match splitAll sep r with
      | [] => [[c]]
      | part :: parts => (c :: part) :: parts

/-- The texts before and after the first `sep`. -/
def splitFirst (sep : Char) : Text → Option (Text × Text)
  | [] => none
  | c :: r =>
    if c = sep then some ([], r)
    else (splitFirst sep r).map fun cut => (c :: cut.1, cut.2)

/-- The parts one after the other with `sep` between them. -/
def joinWith (sep : Text) : List Text → Text
  | [] => []
  | [part] => part
  | part :: parts => part ++ sep ++ joinWith sep parts

theorem splitAll_ne_nil (sep : Char) (s : Text) : splitAll sep s ≠ [] := by
  cases s with
  | nil => simp [splitAll]
  | cons c r =>
    unfold splitAll
    split
    · simp
    · split <;> simp

/-- Joining the parts with the separator gives back the text. -/
theorem joinWith_splitAll (sep : Char) (s : Text) : joinWith [sep] (splitAll sep s) = s := by
  induction s with
  | nil => rfl
  | cons c r ih =>
    obtain ⟨part, parts, h⟩ := List.exists_cons_of_ne_nil (splitAll_ne_nil sep r)
    rw [h] at ih
    by_cases hc : c = sep
    · simp [splitAll, hc, h, joinWith, ih]
    · cases parts with
      | nil => simpa [splitAll, hc, h, joinWith] using ih
      | cons p ps => simpa [splitAll, hc, h, joinWith] using ih

/-- A cut at the first separator loses the separator only, and the part before
    it holds none. -/
theorem splitFirst_eq_some {sep : Char} {s before after : Text}
    (h : splitFirst sep s = some (before, after)) :
    s = before ++ sep :: after ∧ sep ∉ before := by
  induction s generalizing before with
  | nil => simp [splitFirst] at h
  | cons c r ih =>
    by_cases hc : c = sep
    · simp only [splitFirst, hc, if_true, Option.some.injEq, Prod.mk.injEq] at h
      obtain ⟨rfl, rfl⟩ := h
      simp [hc]
    · simp only [splitFirst, hc, if_false, Option.map_eq_some_iff] at h
      obtain ⟨⟨b, a⟩, hcut, heq⟩ := h
      simp only [Prod.mk.injEq] at heq
      obtain ⟨rfl, rfl⟩ := heq
      obtain ⟨rfl, hnot⟩ := ih hcut
      exact ⟨rfl, by simp [hnot, Ne.symm hc]⟩

/-! ## Cuts at a needle -/

/-- The texts before and after the first occurrence of `needle`. -/
def breakOn (needle : Text) : Text → Option (Text × Text)
  | [] => if needle = [] then some ([], []) else none
  | c :: r =>
    if needle.isPrefixOf (c :: r) then some ([], (c :: r).drop needle.length)
    else (breakOn needle r).map fun cut => (c :: cut.1, cut.2)

/-- A cut at a needle loses the needle only. -/
theorem breakOn_eq_some {needle s before after : Text}
    (h : breakOn needle s = some (before, after)) : s = before ++ needle ++ after := by
  induction s generalizing before with
  | nil =>
    by_cases hn : needle = []
    · simp only [breakOn, hn, if_true, Option.some.injEq, Prod.mk.injEq] at h
      simp [hn, ← h.1, ← h.2]
    · simp [breakOn, hn] at h
  | cons c r ih =>
    unfold breakOn at h
    split at h
    · rename_i hp
      simp only [Option.some.injEq, Prod.mk.injEq] at h
      obtain ⟨rfl, rfl⟩ := h
      obtain ⟨t, ht⟩ := List.isPrefixOf_iff_prefix.mp hp
      simp [← ht]
    · simp only [Option.map_eq_some_iff] at h
      obtain ⟨⟨b, a⟩, hcut, heq⟩ := h
      simp only [Prod.mk.injEq] at heq
      obtain ⟨rfl, rfl⟩ := heq
      simp [ih hcut]

end StoryTemplate
