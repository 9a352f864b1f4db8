import StoryTemplate.Conditional.Expression
import StoryTemplate.Pass

/-! # Evaluation of conditional expressions

    One pass replaces every conditional expression of a text by its chosen
    branch and evaluates the expressions in that branch in the same pass.  The
    other branches leave no trace.  An opening brace that opens no conditional
    expression is plain text.

    The braces of the text are paired once, and the work is a stack of spans of
    that one text, the next span to copy on top.

    Main fact: `weight_step_lt` (every step leaves less work, so the pass
    ends). -/

namespace StoryTemplate

/-- The state of an evaluation. -/
structure Evaluation where
  /-- The spans still to be copied, the next one first. -/
  pending : List Span
  output : Array Char
  processed : Nat

namespace Evaluation

/-- Before anything is copied. -/
def start (src : Source) : Evaluation := ⟨[⟨0, src.size⟩], #[], 0⟩

/-- Copies the next span up to its first opening brace, and then either enters
    the chosen branch of the expression there, with the text after the
    expression to follow, or copies the brace.  There is no next state once no
    span is left. -/
def step (src : Source) (braces : BraceMap) (context : Context) (policy : VariablePolicy)
    (state : Evaluation) : Except Fault (Option Evaluation) :=
  match state.pending with
  | [] => .ok none
  | span :: others =>
    let opened := span.find (src.isAt '\x7b')
    if opened < span.stop then
      let copied := state.output ++ Span.text ⟨span.start, opened⟩ src
      match Conditional.parse? src braces opened with
      | some (expression, close) =>
        match expression.choose context policy with
        | .error fault => .error fault
        | .ok branch =>
          .ok <| some ⟨branch :: ⟨close + 1, span.stop⟩ :: others, copied, state.processed + 1⟩
      | none =>
        .ok <| some ⟨⟨opened + 1, span.stop⟩ :: others, copied.push '\x7b', state.processed⟩
    else .ok <| some ⟨others, state.output ++ span.text src, state.processed⟩

/-! ## Termination -/

/-- The work that spans of a text of `size` characters still hold.  What an
    expression opens begins after its brace, so a brace outweighs both of the
    spans that take its place. -/
def weightOf (size : Nat) : List Span → Nat
  | [] => 0
  | span :: others => workFrom 3 size span.start + weightOf size others

/-- Every step leaves less work. -/
theorem weight_step_lt {src : Source} {braces : BraceMap} {context : Context}
    {policy : VariablePolicy} {state next : Evaluation}
    (h : state.step src braces context policy = .ok (some next)) :
    weightOf src.size next.pending < weightOf src.size state.pending := by
  obtain ⟨pending, output, processed⟩ := state
  simp only [step] at h
  split at h
  · simp at h
  · rename_i span others
    have hpos := workFrom_pos (show 0 < 3 by decide) src.size span.start
    split at h
    · rename_i hopen
      have hsize := Source.lt_size_of_isAt (Span.holds_at_find hopen)
      have hstart := span.start_le_find (src.isAt '\x7b')
      have later : ∀ {pos : Nat}, span.find (src.isAt '\x7b') < pos →
          3 * workFrom 3 src.size pos ≤ workFrom 3 src.size span.start :=
        fun hpos => mul_workFrom_le (by decide) (by omega) (by omega)
      split at h
      · rename_i expression close hparse
        split at h
        · simp at h
        · rename_i branch hchoose
          -- The branch and the text after the expression take the place of the span.
          simp only [Except.ok.injEq, Option.some.injEq] at h
          subst h
          have h₁ := later (Conditional.lt_of_choose hparse hchoose)
          have h₂ := later (Nat.lt_succ_of_lt (Conditional.lt_of_parse hparse).1)
          simp only [weightOf, Nat.succ_eq_add_one] at *
          omega
      · simp only [Except.ok.injEq, Option.some.injEq] at h
        subst h
        have h₁ := later (Nat.lt_succ_self _)
        have h₂ := workFrom_pos (show 0 < 3 by decide) src.size
          (span.find (src.isAt '\x7b') + 1)
        simp only [weightOf, Nat.succ_eq_add_one] at *
        omega
    · simp only [Except.ok.injEq, Option.some.injEq] at h
      subst h
      simp only [weightOf]
      omega

/-- Carries an evaluation to its end. -/
def run (src : Source) (braces : BraceMap) (context : Context) (policy : VariablePolicy)
    (state : Evaluation) : Except Fault Pass :=
  match _h : state.step src braces context policy with
  | .error fault => .error fault
  | .ok none => .ok ⟨state.output.toList, state.processed⟩
  | .ok (some next) => run src braces context policy next
termination_by weightOf src.size state.pending
decreasing_by exact weight_step_lt _h

end Evaluation

/-- Replaces every conditional expression of the text by the branch that the
    context chooses, and those in the chosen branches in the same pass. -/
def evaluate (context : Context) (policy : VariablePolicy) (s : Text) : Except Fault Pass :=
  (Evaluation.start s.toArray).run s.toArray (BraceMap.ofText s) context policy

end StoryTemplate
