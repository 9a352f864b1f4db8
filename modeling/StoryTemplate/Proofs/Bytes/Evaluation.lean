import StoryTemplate.Proofs.Bytes.Conditional
import StoryTemplate.Proofs.Bytes.Nesting
import StoryTemplate.Proofs.Conditional.Recursion
import StoryTemplate.Proofs.Text.Cuts

/-! # Evaluation by bytes

    One pass over the conditional expressions of a text, with the spans of the work stack
    counted in bytes.  Each step is in place as long as all spans on the stack are
    intact, and leaves intact spans behind; so the whole pass is in place, and it comes
    to what the pass by characters comes to.

    Main facts: `evaluationStep?_eq` (a step), `intact_step` (which keeps the invariant),
    `evaluate?_eq` (a pass) and `safe_of_reaches` (every span that is ever on the
    stack is safe). -/

namespace StoryTemplate
namespace Bytes

open String (utf8Len)

variable {context : Context} {policy : VariablePolicy}

/-! ## The pass -/

/-- Copies the next span up to its first opening brace, and then either enters the chosen
    branch of the expression there or copies the brace. -/
def evaluationStep? (context : Context) (policy : VariablePolicy) (s : Text) (braces : BraceMap)
    (state : Evaluation) : Checked (Except Fault (Option Evaluation)) :=
  match state.pending with
  | [] => some (.ok none)
  | span :: others => do
      let content ← slice? s span
      match find? ['\x7b'] content with
      | none => return .ok (some ⟨others, state.output ++ content, state.processed⟩)
      | some offset =>
          let opened := span.start + offset
          let before ← slice? s ⟨span.start, opened⟩
          let copied := state.output ++ before
          match ← conditional? s braces opened with
          | some (expression, close) =>
              match expression.choose context policy with
              | .error fault => return .error fault
              | .ok branch =>
                  return .ok (some
                    ⟨branch :: ⟨close + 1, span.stop⟩ :: others, copied, state.processed + 1⟩)
          | none =>
              return .ok (some
                ⟨⟨opened + 1, span.stop⟩ :: others, copied.push '\x7b', state.processed⟩)

/-- Carries an evaluation to its end. -/
noncomputable def evaluationRun? (context : Context) (policy : VariablePolicy) (s : Text)
    (braces : BraceMap) : Evaluation → Checked (Except Fault Pass) :=
  Checked.loop fun state => do
    match ← evaluationStep? context policy s braces state with
    | .error fault => return .inl (.error fault)
    | .ok none => return .inl (.ok ⟨state.output.toList, state.processed⟩)
    | .ok (some next) => return .inr next

/-- Before anything is copied. -/
def evaluationStart (s : Text) : Evaluation := ⟨[⟨0, utf8Len s⟩], #[], 0⟩

/-- Replaces every conditional expression of the text by its chosen branch. -/
noncomputable def evaluate? (context : Context) (policy : VariablePolicy) (s : Text) :
    Checked (Except Fault Pass) :=
  evaluationRun? context policy s (bracesOf s) (evaluationStart s)

/-- The states of a pass over the text. -/
inductive EvaluationReaches (context : Context) (policy : VariablePolicy) (s : Text) :
    Evaluation → Prop
  | start : EvaluationReaches context policy s (evaluationStart s)
  | step {state next : Evaluation} (reached : EvaluationReaches context policy s state)
      (h : evaluationStep? context policy s (bracesOf s) state = some (.ok (some next))) :
      EvaluationReaches context policy s next

/-! ## One step -/

/-- All spans on the stack are intact. -/
def Intact (src : Source) (state : Evaluation) : Prop := ∀ span ∈ state.pending, span.Intact src

/-- The state with its spans counted in bytes. -/
def inBytes (src : Source) (state : Evaluation) : Evaluation :=
  { state with pending := state.pending.map (Span.inBytes · src) }

variable {src : Source} {span : Span} {t : Text} {state next : Evaluation}

theorem find?_brace_of_not_mem (h : ∀ c ∈ t, c ≠ '\x7b') : find? ['\x7b'] t = none := by
  rw [find?, breakOn_singleton, splitFirst_eq_none_iff.2 fun hmem => h _ hmem rfl]
  rfl

theorem find?_brace {before rest : Text} (h : ∀ c ∈ before, c ≠ '\x7b') :
    find? ['\x7b'] (before ++ '\x7b' :: rest) = some (utf8Len before) := by
  rw [find?, breakOn_singleton, splitFirst_append fun hmem => h _ hmem rfl]
  rfl

/-- A step by bytes is in place and does what the step by characters does. -/
theorem evaluationStep?_eq (h : Intact src state) :
    evaluationStep? context policy src.toList (bracesOf src.toList) (inBytes src state) =
      some ((Evaluation.step src (.ofText src.toList) context policy state).map
        (Option.map (inBytes src))) := by
  obtain ⟨pending, output, processed⟩ := state
  cases pending with
  | nil => rfl
  | cons span others =>
      have hshow := (h span (.head _)).shows_text
      generalize span.text src = t at hshow
      rw [evaluationStep?]
      show (slice? src.toList (span.inBytes src) >>= _) = _
      rw [Checked.bind_of_eq hshow.slice?_eq]
      rcases firstOpen_cases t with hnone | ⟨before, rest, rfl, hbefore⟩
      · have hplain : ¬ firstOpen t < t.length := by
          rw [firstOpen, List.takeWhile_eq_self_iff.2 fun c hc => by simpa using hnone c hc]
          exact Nat.lt_irrefl _
        rw [find?_brace_of_not_mem hnone, Evaluation.step_plain context policy hshow hplain]
        rfl
      · have hopen : firstOpen (before ++ '\x7b' :: rest) < (before ++ '\x7b' :: rest).length :=
          firstOpen_lt hbefore
        have hplace : (span.inBytes src).start + utf8Len before =
            src.byteOffset (before.length + span.start) := by
          rw [Nat.add_comm before.length]
          exact hshow.left.inBytes_stop.symm
        have hcopied : slice? src.toList
            ⟨(span.inBytes src).start, src.byteOffset (before.length + span.start)⟩ =
              some before := by
          rw [Nat.add_comm before.length]
          exact hshow.left.slice?_eq
        rw [find?_brace hbefore, Evaluation.step_open context policy hshow hopen,
          firstOpen_eq hbefore, List.take_left]
        dsimp only
        rw [hplace, Checked.bind_of_eq hcopied, Checked.bind_of_eq (conditional?_eq src _)]
        cases hparse : Conditional.parse? src (.ofText src.toList) (before.length + span.start) with
        | none =>
            have hbrace : src.byteOffset (before.length + span.start + 1) =
                src.byteOffset (before.length + span.start) + 1 := by
              rw [Nat.add_comm before.length]
              exact Source.byteOffset_succ hshow.right.head
            dsimp only [Option.map_none]
            rw [← hbrace]
            rfl
        | some found =>
            obtain ⟨expression, close⟩ := found
            have hclose := (Conditional.parse_eq_some.1 hparse).1
            dsimp only [Option.map_some]
            rw [Conditional.inBytes, Conditional.choose_mapSpans, ← byteOffset_close_succ hclose]
            cases expression.choose context policy with
            | error fault => rfl
            | ok branch => rfl

/-- A step leaves intact spans on the stack. -/
theorem intact_step (h : Intact src state)
    (hstep : Evaluation.step src (.ofText src.toList) context policy state = .ok (some next)) :
    Intact src next := by
  obtain ⟨pending, output, processed⟩ := state
  cases pending with
  | nil => exact nomatch hstep
  | cons span others =>
      obtain ⟨hspan, hothers⟩ := List.forall_mem_cons.1 h
      have hshow := hspan.shows_text
      generalize span.text src = t at hshow
      have hstop := hshow.stop_eq
      by_cases ho : firstOpen t < t.length
      · rw [Evaluation.step_open context policy hshow ho] at hstep
        cases hparse : Conditional.parse? src (.ofText src.toList) (firstOpen t + span.start) with
        | none =>
            rw [hparse] at hstep
            obtain rfl := Option.some.inj (Except.ok.inj hstep)
            refine List.forall_mem_cons.2 ⟨hspan.suffix ?_ ?_, hothers⟩ <;> omega
        | some found =>
            obtain ⟨expression, close⟩ := found
            rw [hparse] at hstep
            dsimp only at hstep
            have hopened := (Conditional.lt_of_parse hparse).1
            have hbraces := (Conditional.parse_eq_some.1 hparse).1
            have hclose := hspan.inside _ _ (by omega) (by omega) hbraces
            cases hchoose : expression.choose context policy with
            | error fault =>
                rw [hchoose] at hstep
                exact nomatch hstep
            | ok branch =>
                rw [hchoose] at hstep
                obtain rfl := Option.some.inj (Except.ok.inj hstep)
                have hbranch := Conditional.branch_intact hparse branch
                  (Conditional.mem_branches_of_choose hchoose)
                refine List.forall_mem_cons.2 ⟨hbranch, List.forall_mem_cons.2 ⟨?_, hothers⟩⟩
                exact hspan.suffix (by omega) hclose
      · rw [Evaluation.step_plain context policy hshow ho] at hstep
        obtain rfl := Option.some.inj (Except.ok.inj hstep)
        exact hothers

/-! ## A whole pass -/

theorem evaluationRun?_eq (h : Intact src state) :
    evaluationRun? context policy src.toList (bracesOf src.toList) (inBytes src state) =
      some (Evaluation.run src (.ofText src.toList) context policy state) := by
  refine Checked.loop_eq_some_iff.2 ?_
  fun_induction Evaluation.run src (.ofText src.toList) context policy state with
  | case1 state fault hstep =>
      refine .last ((Checked.bind_of_eq (evaluationStep?_eq h) _).trans ?_)
      rw [hstep]
      rfl
  | case2 state hstep =>
      refine .last ((Checked.bind_of_eq (evaluationStep?_eq h) _).trans ?_)
      rw [hstep]
      rfl
  | case3 state next hstep ih =>
      refine .next ((Checked.bind_of_eq (evaluationStep?_eq h) _).trans ?_)
        (ih (intact_step h hstep))
      rw [hstep]
      rfl

theorem intact_start (s : Text) : Intact s.toArray (Evaluation.start s.toArray) :=
  List.forall_mem_singleton.2 (.ofText s)

theorem inBytes_start (s : Text) :
    inBytes s.toArray (Evaluation.start s.toArray) = evaluationStart s := by
  rw [inBytes, Evaluation.start, evaluationStart, List.map_singleton, Span.inBytes,
    Source.byteOffset_zero, Source.byteOffset_size]

/-- A pass by bytes is in place from beginning to end, and has the outcome of the pass by
    characters. -/
theorem evaluate?_eq (context : Context) (policy : VariablePolicy) (s : Text) :
    evaluate? context policy s = some (evaluate context policy s) := by
  rw [evaluate?, ← inBytes_start]
  exact evaluationRun?_eq (intact_start s)

/-- Every state of a pass by bytes is one of the pass by characters. -/
theorem exists_of_reaches {s : Text} {state : Evaluation}
    (h : EvaluationReaches context policy s state) :
    ∃ counted, Intact s.toArray counted ∧ state = inBytes s.toArray counted := by
  induction h with
  | start => exact ⟨_, intact_start s, (inBytes_start s).symm⟩
  | step reached hstep ih =>
      obtain ⟨counted, hintact, rfl⟩ := ih
      have hmap := Option.some.inj ((evaluationStep?_eq hintact).symm.trans hstep)
      obtain ⟨counted', hcounted, hnext⟩ := map_eq_ok_iff.1 hmap
      obtain ⟨next', rfl, rfl⟩ := Option.map_eq_some_iff.1 hnext
      exact ⟨next', intact_step hintact hcounted, rfl⟩

/-- No state of a pass has a next step out of place, and every span that is ever on the
    stack is safe for reading expressions. -/
theorem safe_of_reaches {s : Text} {state : Evaluation}
    (h : EvaluationReaches context policy s state) :
    (evaluationStep? context policy s (bracesOf s) state).isSome = true ∧
    ∀ span ∈ state.pending, Safe s (conditional? s (bracesOf s)) Conditional.branches span := by
  obtain ⟨counted, hintact, rfl⟩ := exists_of_reaches h
  refine ⟨Option.isSome_of_eq_some (evaluationStep?_eq hintact),
    List.forall_mem_map.2 fun span hspan => ?_⟩
  refine safe_inBytes (hintact span hspan) content?_eq
    (fun expression => Conditional.branches_mapSpans _ expression) fun {o expression c} hparse => ?_
  rw [← Conditional.parse_eq] at hparse
  have hbegin := (Conditional.lt_of_parse hparse).2
  have hend := Conditional.stop_le_of_parse hparse
  exact fun branch hbranch => ⟨Conditional.branch_intact hparse branch hbranch,
    hbegin branch hbranch, hend branch hbranch⟩

end Bytes
end StoryTemplate
