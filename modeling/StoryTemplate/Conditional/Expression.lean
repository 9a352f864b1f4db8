import StoryTemplate.Braces
import StoryTemplate.Config
import StoryTemplate.Context
import StoryTemplate.Fault

/-! # Conditional expressions

    A ternary `{ flag ? T | F }` chooses by a flag.  It is divided at the last
    bar outside the groups in it, so that bars before belong to `T`.

    A matching `{ name:value P |:other Q | F }` compares a variable with the
    value of each arm, from left to right, and chooses the branch of the first
    equal one, else the fallback `F`.  The fallback may not look like an arm; a
    colon that is not followed by a word is plain text.

    Branches are spans of the text that holds the expression.

    Main facts: `Conditional.lt_of_parse` and `Conditional.lt_of_choose` (the end
    of an expression and its branches all lie after its opening brace). -/

namespace StoryTemplate

/-- A conditional expression. -/
inductive Conditional
  | ternary (flag : Text) (whenTrue whenFalse : Span)
  | matching (name : Text) (arms : List (Text × Span)) (fallback : Span)
  deriving DecidableEq, Repr

namespace Conditional

/-! ## Reading -/

/-- Reads the branches of a ternary from the span after its question mark. -/
def ternary? (src : Source) (braces : BraceMap) (flag : Text) (body : Span) : Option Conditional :=
  match body.parts src braces '|' with
  | first :: second :: others =>
    -- The bar before the last part is the one that divides the branches.
    let last := (first :: second :: others).getLast (by simp)
    some (.ternary flag ((Span.mk body.start (last.start - 1)).branch src) (last.branch src))
  | _ => none

/-- Reads an arm: a colon and a word, then the branch. -/
def arm? (src : Source) (part : Span) : Option (Text × Span) :=
  if part.startsWith src ':' then
    let value := (Span.mk (part.start + 1) part.stop).word src
    if value.isEmpty then none
    else some (value.text src, (Span.mk value.stop part.stop).branch src)
  else none

/-- Reads the arms and the fallback of a matching from the span after its colon. -/
def matching? (src : Source) (braces : BraceMap) (name : Text) (body : Span) : Option Conditional :=
  let value := body.word src
  let rest := Span.mk value.stop body.stop
  if value.isEmpty || rest.isEmpty || !src.holdsAt isBlank rest.start then none
  else match rest.parts src braces '|' with
    | primary :: second :: others =>
      -- The parts between the first and the last are the other arms.
      let fallback := (second :: others).getLast (by simp)
      if (arm? src fallback).isSome then none
      else ((second :: others).dropLast.mapM (arm? src)).map fun alternatives =>
        .matching name ((value.text src, primary.branch src) :: alternatives) (fallback.branch src)
    | _ => none

/-- Reads the expression whose opening brace is at the position, together with
    the position of its closing brace. -/
def parse? (src : Source) (braces : BraceMap) (opened : Nat) : Option (Conditional × Nat) :=
  match braces.close opened with
  | none => none
  | some close =>
    let name := ((Span.mk (opened + 1) close).skipBlank src).word src
    let rest := Span.mk name.stop close
    -- White space may stand before a question mark, but not before a colon.
    let mark := rest.skipBlank src
    let expression :=
      if name.isEmpty then none
      else if mark.startsWith src '?' then ternary? src braces (name.text src) ⟨mark.start + 1, close⟩
      else if rest.startsWith src ':' then matching? src braces (name.text src) ⟨rest.start + 1, close⟩
      else none
    expression.map fun expression => (expression, close)

/-! ## Choosing -/

/-- The branch that the context chooses.  Under the strict policy a variable that
    is not set, or is empty where a matching asks for it, is a fault. -/
def choose (context : Context) (policy : VariablePolicy) : Conditional → Except Fault Span
  | .ternary flag whenTrue whenFalse =>
    match context.flags.get? flag with
    | some value => .ok (if value then whenTrue else whenFalse)
    | none => if policy = .strict then .error (.unsetFlag flag) else .ok whenFalse
  | .matching name arms fallback =>
    match context.filledText? name with
    | some value => .ok (((arms.find? fun arm => arm.1 = value).map Prod.snd).getD fallback)
    | none => if policy = .strict then .error (.unsetVariable name) else .ok fallback

/-! ## Places -/

/-- The spans that may be chosen. -/
def branches : Conditional → List Span
  | .ternary _ whenTrue whenFalse => [whenTrue, whenFalse]
  | .matching _ arms fallback => fallback :: arms.map Prod.snd

/-- Only a branch of the expression is ever chosen. -/
theorem mem_branches_of_choose {expression : Conditional} {context : Context}
    {policy : VariablePolicy} {chosen : Span} (h : expression.choose context policy = .ok chosen) :
    chosen ∈ expression.branches := by
  cases expression with
  | ternary flag whenTrue whenFalse =>
    simp only [choose] at h
    split at h
    · rename_i value _
      cases value <;> simp_all [branches]
    · split at h <;> simp_all [branches]
  | matching name arms fallback =>
    simp only [choose] at h
    split at h
    · rename_i value _
      simp only [Except.ok.injEq] at h
      subst h
      cases hfind : arms.find? fun arm => arm.1 = value with
      | none => simp [branches]
      | some arm =>
        exact .tail _ (List.mem_map_of_mem (f := Prod.snd) (List.mem_of_find?_eq_some hfind))
    · split at h <;> simp_all [branches]

theorem start_le_of_ternary {src : Source} {braces : BraceMap} {flag : Text} {body : Span}
    {expression : Conditional} (h : ternary? src braces flag body = some expression) :
    ∀ branch ∈ expression.branches, body.start ≤ branch.start := by
  unfold ternary? at h
  split at h
  · rename_i first second others hparts
    simp only [Option.some.injEq] at h
    subst h
    have hlast : (first :: second :: others).getLast (by simp) ∈ body.parts src braces '|' := by
      rw [hparts]
      exact List.getLast_mem _
    intro branch hbranch
    simp only [branches, List.mem_cons, List.not_mem_nil, or_false] at hbranch
    rcases hbranch with rfl | rfl
    · exact Span.start_le_branch
        ⟨body.start, ((first :: second :: others).getLast (by simp)).start - 1⟩ src
    · exact Nat.le_trans (Span.start_le_of_mem_parts hlast) (Span.start_le_branch _ src)
  · simp at h

theorem start_le_of_arm {src : Source} {part : Span} {arm : Text × Span}
    (h : arm? src part = some arm) : part.start ≤ arm.2.start := by
  unfold arm? at h
  split at h
  · simp only at h
    split at h
    · simp at h
    · simp only [Option.some.injEq] at h
      subst h
      have h₁ := Span.start_le_word_stop (Span.mk (part.start + 1) part.stop) src
      have h₂ := Span.start_le_branch
        (Span.mk ((Span.mk (part.start + 1) part.stop).word src).stop part.stop) src
      simp only at h₁ h₂ ⊢
      omega
  · simp at h

theorem mem_mapM_some {α β : Type} {f : α → Option β} {xs : List α} {ys : List β}
    (h : xs.mapM f = some ys) : ∀ y ∈ ys, ∃ x ∈ xs, f x = some y := by
  induction xs generalizing ys with
  | nil => simp_all
  | cons x xs ih =>
    simp only [List.mapM_cons, Option.pure_def, Option.bind_eq_bind, Option.bind_eq_some_iff,
      Option.some.injEq] at h
    obtain ⟨y, hy, rest, hrest, rfl⟩ := h
    intro z hz
    rcases List.mem_cons.1 hz with rfl | hz
    · exact ⟨x, .head _, hy⟩
    · obtain ⟨w, hw, hwz⟩ := ih hrest z hz
      exact ⟨w, .tail _ hw, hwz⟩

theorem start_le_of_matching {src : Source} {braces : BraceMap} {name : Text} {body : Span}
    {expression : Conditional} (h : matching? src braces name body = some expression) :
    ∀ branch ∈ expression.branches, body.start ≤ branch.start := by
  have hvalue := Span.start_le_word_stop body src
  unfold matching? at h
  simp only at h
  split at h
  · simp at h
  · split at h
    · rename_i primary second others hparts
      have inside : ∀ part ∈ primary :: second :: others, body.start ≤ part.start :=
        fun part hpart => Nat.le_trans hvalue (Span.start_le_of_mem_parts (hparts ▸ hpart))
      split at h
      · simp at h
      · obtain ⟨alternatives, halts, rfl⟩ := Option.map_eq_some_iff.1 h
        intro branch hbranch
        simp only [branches, List.map_cons, List.mem_cons, List.mem_map] at hbranch
        rcases hbranch with rfl | rfl | ⟨arm, harm, rfl⟩
        · exact Nat.le_trans (inside _ (.tail _ (List.getLast_mem _))) (Span.start_le_branch _ src)
        · exact Nat.le_trans (inside _ (.head _)) (Span.start_le_branch _ src)
        · obtain ⟨part, hpart, hread⟩ := mem_mapM_some halts arm harm
          exact Nat.le_trans (inside _ (.tail _ ((List.dropLast_sublist _).mem hpart)))
            (start_le_of_arm hread)
    · simp at h

/-- An expression ends after its opening brace, and so begin all its branches. -/
theorem lt_of_parse {src : Source} {braces : BraceMap} {opened close : Nat}
    {expression : Conditional} (h : parse? src braces opened = some (expression, close)) :
    opened < close ∧ ∀ branch ∈ expression.branches, opened < branch.start := by
  unfold parse? at h
  split at h
  · simp at h
  · rename_i close' hclose
    obtain ⟨expression', hexpr, heq⟩ := Option.map_eq_some_iff.1 h
    simp only [Prod.mk.injEq] at heq
    obtain ⟨rfl, rfl⟩ := heq
    refine ⟨BraceMap.lt_of_close hclose, fun branch hbranch => ?_⟩
    have hskip := Span.start_le_skipBlank (Span.mk (opened + 1) close') src
    have hname := Span.start_le_word_stop ((Span.mk (opened + 1) close').skipBlank src) src
    have hmark := Span.start_le_skipBlank
      (Span.mk (((Span.mk (opened + 1) close').skipBlank src).word src).stop close') src
    split at hexpr
    · simp at hexpr
    · split at hexpr
      · have := start_le_of_ternary hexpr branch hbranch
        simp only at *
        omega
      · split at hexpr
        · have := start_le_of_matching hexpr branch hbranch
          simp only at *
          omega
        · simp at hexpr

/-- A chosen branch begins after the opening brace of its expression. -/
theorem lt_of_choose {src : Source} {braces : BraceMap} {opened close : Nat}
    {expression : Conditional} (h : parse? src braces opened = some (expression, close))
    {context : Context} {policy : VariablePolicy} {chosen : Span}
    (hchosen : expression.choose context policy = .ok chosen) : opened < chosen.start :=
  (lt_of_parse h).2 _ (mem_branches_of_choose hchosen)

end Conditional
end StoryTemplate
