import StoryTemplate.Conditional.Expression
import StoryTemplate.Proofs.Source.Windows

/-! # Conditional locality — an expression is read from its group alone

    Whether a brace opens a conditional expression, and which, is decided by the
    text up to the closing brace.  So an expression of a text is read in the
    same way, with its places moved, where the text is part of a longer one.

    Main facts: `content_shift` (the text between two braces is read alike
    wherever it stands) and `choose_shift` (the same branch is chosen). -/

namespace StoryTemplate
namespace Span

/-- Only the first part begins where the span does. -/
theorem lt_of_mem_tail_partsFrom {src : Source} {braces : BraceMap} {sep : Char}
    {stop start pos : Nat} (hle : start ≤ pos) {part : Span}
    (h : part ∈ (partsFrom src braces sep stop start pos).tail) : pos < part.start := by
  fun_induction partsFrom src braces sep stop start pos with
  | case1 start pos hlt close hc ih =>
      have := BraceMap.lt_of_close (Option.filter_eq_some_iff.1 hc).1
      exact Nat.lt_trans (by omega) (ih (by omega) h)
  | case2 start pos hlt hc hsep ih => exact start_le_of_mem_partsFrom (Nat.le_refl _) h
  | case3 start pos hlt hc hsep ih => exact Nat.lt_trans (Nat.lt_succ_self _) (ih (by omega) h)
  | case4 start pos hlt => simp at h

/-- A part that another one stands before begins after the separator between them. -/
theorem lt_getLast_parts {s : Span} {src : Source} {braces : BraceMap} {sep : Char}
    {first second : Span} {others : List Span}
    (h : s.parts src braces sep = first :: second :: others) :
    s.start < ((second :: others).getLast (List.cons_ne_nil _ _)).start := by
  refine lt_of_mem_tail_partsFrom (Nat.le_refl _)
    (show _ ∈ (s.parts src braces sep).tail from ?_)
  rw [h]
  exact List.getLast_mem _

end Span

namespace Conditional

/-- The expression with all its branches `k` positions further on. -/
def shift (k : Nat) : Conditional → Conditional
  | .ternary flag whenTrue whenFalse => .ternary flag (whenTrue.shift k) (whenFalse.shift k)
  | .matching name arms fallback =>
      .matching name (arms.map fun arm => (arm.1, arm.2.shift k)) (fallback.shift k)

/-- Reads the expression between two braces. -/
def content? (src : Source) (braces : BraceMap) (inner : Span) : Option Conditional :=
  let name := (inner.skipBlank src).word src
  let rest := Span.mk name.stop inner.stop
  let mark := rest.skipBlank src
  if name.isEmpty then none
  else if mark.startsWith src '?' then
    ternary? src braces (name.text src) ⟨mark.start + 1, inner.stop⟩
  else if rest.startsWith src ':' then
    matching? src braces (name.text src) ⟨rest.start + 1, inner.stop⟩
  else none

/-- An expression is what stands between its braces. -/
theorem parse_eq (src : Source) (braces : BraceMap) (opened : Nat) :
    parse? src braces opened = braces.readGroup (content? src braces) opened := by
  rw [parse?, BraceMap.readGroup]
  cases braces.close opened with
  | none => rfl
  | some close => rfl

theorem parse_eq_some {src : Source} {braces : BraceMap} {opened close : Nat}
    {expression : Conditional} : parse? src braces opened = some (expression, close) ↔
      braces.close opened = some close ∧
        content? src braces ⟨opened + 1, close⟩ = some expression := by
  rw [parse_eq, BraceMap.readGroup_eq_some]

variable {src sub : Source} {braces pairs : BraceMap} {k : Nat} {s : Span} {t : Text}

theorem arm_shift (w : Window src braces sub pairs k) (h : s.Shows sub t) :
    arm? src (s.shift k) = (arm? sub s).map fun arm => (arm.1, arm.2.shift k) := by
  rw [arm?, arm?, w.startsWith_shift h]
  by_cases hcolon : s.startsWith sub ':' = true
  · rw [if_pos hcolon, if_pos hcolon]
    have hrest := h.tail_of_startsWith hcolon
    have hafter : Span.mk (((Span.mk (s.start + 1) s.stop).word sub).shift k).stop
        (s.shift k).stop =
        (Span.mk ((Span.mk (s.start + 1) s.stop).word sub).stop s.stop).shift k := rfl
    dsimp only
    rw [Span.tail_shift, w.word_shift hrest, hafter, w.isEmpty_shift hrest.word,
      w.text_shift hrest.word, w.branch_shift hrest.afterWord]
    by_cases hempty : ((Span.mk (s.start + 1) s.stop).word sub).isEmpty = true
    · rw [if_pos hempty, if_pos hempty]
      rfl
    · rw [if_neg hempty, if_neg hempty]
      rfl
  · rw [if_neg hcolon, if_neg hcolon]
    rfl

theorem arms_shift (w : Window src braces sub pairs k) {parts : List Span}
    (h : ∀ part ∈ parts, part.Shows sub (part.text sub)) :
    (parts.map (Span.shift · k)).mapM (arm? src) =
      (parts.mapM (arm? sub)).map fun arms => arms.map fun arm => (arm.1, arm.2.shift k) := by
  induction parts with
  | nil => rfl
  | cons part rest ih =>
      rw [List.map_cons, List.mapM_cons, List.mapM_cons, arm_shift w (h _ (.head _)),
        ih fun p hp => h p (.tail _ hp)]
      cases arm? sub part with
      | none => rfl
      | some arm =>
          cases rest.mapM (arm? sub) with
          | none => rfl
          | some arms => rfl

theorem ternary_shift (w : Window src braces sub pairs k) (h : s.Shows sub t) (flag : Text) :
    ternary? src braces flag (s.shift k) = (ternary? sub pairs flag s).map (shift k) := by
  rw [ternary?, ternary?, w.parts_shift h]
  rcases hparts : s.parts sub pairs '|' with _ | ⟨first, _ | ⟨second, others⟩⟩
  · rfl
  · rfl
  · have hlt := Span.lt_getLast_parts hparts
    have hmem : (second :: others).getLast (List.cons_ne_nil _ _) ∈ s.parts sub pairs '|' := by
      rw [hparts]
      exact .tail _ (List.getLast_mem _)
    have hlast := h.part hmem
    generalize hl : (second :: others).getLast (List.cons_ne_nil _ _) = last at *
    have htrue : (Span.mk s.start (last.start - 1)).Shows sub _ :=
      .of_le (by simp only; omega) (by have := hlast.start_le; have := hlast.stop_le; simp only; omega)
    have hshift : Span.mk (s.shift k).start ((last.shift k).start - 1) =
        (Span.mk s.start (last.start - 1)).shift k := by
      show Span.mk (s.start + k) (last.start + k - 1) = ⟨s.start + k, last.start - 1 + k⟩
      rw [Nat.sub_add_comm (by omega)]
    have hgetLast : (((first :: second :: others).map (Span.shift · k)).getLast (by simp)) =
        last.shift k := by
      rw [List.getLast_map, List.getLast_cons (List.cons_ne_nil _ _), hl]
    simp only [List.map_cons] at hgetLast ⊢
    rw [hgetLast, List.getLast_cons (List.cons_ne_nil _ _), hl, hshift, w.branch_shift htrue,
      w.branch_shift hlast]
    rfl

/-- Reads the arms and the fallback of a matching from the span after its first
    value. -/
def armsAfter? (src : Source) (braces : BraceMap) (name value : Text) (rest : Span) :
    Option Conditional :=
  match rest.parts src braces '|' with
  | primary :: second :: others =>
      let fallback := (second :: others).getLast (List.cons_ne_nil second others)
      if (arm? src fallback).isSome then none
      else ((second :: others).dropLast.mapM (arm? src)).map fun alternatives =>
        .matching name ((value, primary.branch src) :: alternatives) (fallback.branch src)
  | _ => none

/-- A matching is a value, white space and what the arms are read from. -/
theorem matching_eq (src : Source) (braces : BraceMap) (name : Text) (body : Span) :
    matching? src braces name body =
      if (body.word src).isEmpty || (Span.mk (body.word src).stop body.stop).isEmpty ||
        !src.holdsAt isBlank (body.word src).stop then none
      else armsAfter? src braces name ((body.word src).text src)
        ⟨(body.word src).stop, body.stop⟩ := rfl

theorem armsAfter_shift (w : Window src braces sub pairs k) (h : s.Shows sub t)
    (name value : Text) : armsAfter? src braces name value (s.shift k) =
      (armsAfter? sub pairs name value s).map (shift k) := by
  rw [armsAfter?, armsAfter?, w.parts_shift h]
  rcases hparts : s.parts sub pairs '|' with _ | ⟨primary, _ | ⟨second, others⟩⟩
  · rfl
  · rfl
  · have hshow : ∀ part ∈ primary :: second :: others, part.Shows sub (part.text sub) :=
      fun part hpart => h.part (hparts ▸ hpart)
    have hlast := hshow _ (.tail _ (List.getLast_mem (List.cons_ne_nil second others)))
    have halternatives : ∀ part ∈ (second :: others).dropLast, part.Shows sub (part.text sub) :=
      fun part hpart => hshow part (.tail _ ((List.dropLast_sublist _).mem hpart))
    have hgetLast : ((second :: others).map (Span.shift · k)).getLast (by simp) =
        ((second :: others).getLast (List.cons_ne_nil _ _)).shift k := List.getLast_map _
    have hdropLast : ((second :: others).map (Span.shift · k)).dropLast =
        (second :: others).dropLast.map (Span.shift · k) := (List.map_dropLast).symm
    simp only [List.map_cons] at hgetLast hdropLast ⊢
    rw [hgetLast, hdropLast, arm_shift w hlast, arms_shift w halternatives,
      w.branch_shift hlast, w.branch_shift (hshow _ (.head _)), Option.isSome_map]
    by_cases harm : (arm? sub ((second :: others).getLast (List.cons_ne_nil _ _))).isSome = true
    · rw [if_pos harm, if_pos harm]
      rfl
    · rw [if_neg harm, if_neg harm]
      cases (second :: others).dropLast.mapM (arm? sub) with
      | none => rfl
      | some arms => rfl

theorem matching_shift (w : Window src braces sub pairs k) (h : s.Shows sub t) (name : Text) :
    matching? src braces name (s.shift k) = (matching? sub pairs name s).map (shift k) := by
  have hrest := h.afterWord
  have hafter : Span.mk ((s.word sub).shift k).stop (s.shift k).stop =
      (Span.mk (s.word sub).stop s.stop).shift k := rfl
  have hguard := w.not_holdsAt_start hrest isBlank
  rw [matching_eq, matching_eq, w.word_shift h, hafter, w.isEmpty_shift h.word,
    w.isEmpty_shift hrest, w.text_shift h.word, armsAfter_shift w hrest, Span.shift_stop,
    Bool.or_assoc, Bool.or_assoc, hguard]
  by_cases hg : ((s.word sub).isEmpty || ((Span.mk (s.word sub).stop s.stop).isEmpty ||
      !sub.holdsAt isBlank (s.word sub).stop)) = true
  · rw [if_pos hg, if_pos hg]
    rfl
  · rw [if_neg hg, if_neg hg]

/-- What stands between two braces is read alike wherever it stands. -/
theorem content_shift (w : Window src braces sub pairs k) (h : s.Shows sub t) :
    content? src braces (s.shift k) = (content? sub pairs s).map (shift k) := by
  have hinner := h.skipBlank
  have hrest : (Span.mk ((s.skipBlank sub).word sub).stop s.stop).Shows sub _ := hinner.afterWord
  have hafter : Span.mk (((s.skipBlank sub).word sub).shift k).stop (s.shift k).stop =
      (Span.mk ((s.skipBlank sub).word sub).stop s.stop).shift k := rfl
  rw [content?, content?]
  dsimp only
  rw [w.skipBlank_shift h, w.word_shift hinner, hafter, w.skipBlank_shift hrest,
    w.isEmpty_shift hinner.word, w.startsWith_shift hrest.skipBlank, w.startsWith_shift hrest,
    w.text_shift hinner.word]
  generalize hname : (s.skipBlank sub).word sub = name at *
  by_cases hempty : name.isEmpty = true
  · rw [if_pos hempty, if_pos hempty]
    rfl
  · rw [if_neg hempty, if_neg hempty]
    by_cases hmark : ((Span.mk name.stop s.stop).skipBlank sub).startsWith sub '?' = true
    · have htail : (Span.mk (((Span.mk name.stop s.stop).skipBlank sub).start + 1) s.stop).Shows sub
          _ := hrest.skipBlank.tail_of_startsWith hmark
      rw [if_pos hmark, if_pos hmark, ← ternary_shift w htail]
      exact congrArg _ (Span.tail_shift ((Span.mk name.stop s.stop).skipBlank sub) k)
    · rw [if_neg hmark, if_neg hmark]
      by_cases hcolon : (Span.mk name.stop s.stop).startsWith sub ':' = true
      · rw [if_pos hcolon, if_pos hcolon, ← matching_shift w (hrest.tail_of_startsWith hcolon)]
        exact congrArg _ (Span.tail_shift (Span.mk name.stop s.stop) k)
      · rw [if_neg hcolon, if_neg hcolon]
        rfl

/-- The expression with other spans for its branches. -/
def mapSpans (f : Span → Span) : Conditional → Conditional
  | .ternary flag whenTrue whenFalse => .ternary flag (f whenTrue) (f whenFalse)
  | .matching name arms fallback =>
      .matching name (arms.map fun arm => (arm.1, f arm.2)) (f fallback)

theorem branches_mapSpans (f : Span → Span) (expression : Conditional) :
    (expression.mapSpans f).branches = expression.branches.map f := by
  cases expression with
  | ternary flag whenTrue whenFalse => rfl
  | matching name arms fallback =>
      rw [mapSpans, branches, branches, List.map_cons, List.map_map, List.map_map]
      rfl

/-- The context chooses by names and values, so it chooses the same branch whatever the
    spans are. -/
theorem choose_mapSpans (f : Span → Span) (expression : Conditional) (context : Context)
    (policy : VariablePolicy) : (expression.mapSpans f).choose context policy =
      (expression.choose context policy).map f := by
  cases expression with
  | ternary flag whenTrue whenFalse =>
      rw [mapSpans, choose, choose]
      cases context.flags.get? flag with
      | some value => cases value <;> rfl
      | none => by_cases hp : policy = .strict <;> simp [hp, Except.map]
  | matching name arms fallback =>
      rw [mapSpans, choose, choose]
      cases context.filledText? name with
      | none => by_cases hp : policy = .strict <;> simp [hp, Except.map]
      | some value =>
          have hfind : (arms.map fun arm => (arm.1, f arm.2)).find? (fun arm => arm.1 = value) =
              (arms.find? fun arm => arm.1 = value).map fun arm => (arm.1, f arm.2) :=
            List.find?_map
          dsimp only
          rw [hfind]
          cases arms.find? fun arm => arm.1 = value with
          | none => rfl
          | some arm => rfl

theorem shift_eq_mapSpans (k : Nat) (expression : Conditional) :
    expression.shift k = expression.mapSpans (Span.shift · k) := by
  cases expression <;> rfl

/-- The same branch is chosen. -/
theorem choose_shift (k : Nat) (expression : Conditional) (context : Context)
    (policy : VariablePolicy) : (expression.shift k).choose context policy =
      (expression.choose context policy).map (Span.shift · k) := by
  rw [shift_eq_mapSpans, choose_mapSpans]

end Conditional
end StoryTemplate
