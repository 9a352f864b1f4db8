import StoryTemplate.Proofs.Conditional.Recursion
import StoryTemplate.Proofs.Injection.Recursion
import StoryTemplate.Render

/-! # Look-ups — what a rendering reads

    A rendering asks two things of its context: which value an injection has, and
    which branch an expression chooses.  Two contexts that answer alike give the same
    rendering, success or fault: the passes take the same steps.

    Main facts: `inject_congr` and `evaluate_congr` (one pass of either kind) and
    `Document.render_congr` (a whole rendering). -/

namespace StoryTemplate

variable {source source' : Dict Text} {context context' : Context} {policy : VariablePolicy}

/-- Values that are looked up alike are put in alike. -/
theorem expand_congr (h : ∀ name, injectedValue? source' name = injectedValue? source name)
    (chain : List Text) (s : Text) : expand source' chain s = expand source chain s := by
  induction chain, s using expand_induction source with
  | plain chain s hfind => rw [expand_none hfind, expand_none hfind]
  | missing chain s found hfind hvalue =>
      rw [expand_some hfind, expand_some hfind, expandName_missing hvalue,
        expandName_missing ((h _).trans hvalue)]
      rfl
  | cycle chain s found value hfind hvalue hcycle =>
      rw [expand_some hfind, expand_some hfind, expandName_cycle hvalue hcycle,
        expandName_cycle ((h _).trans hvalue) hcycle]
      rfl
  | enter chain s found value hfind hvalue hfresh ihv ihr =>
      rw [expand_some hfind, expand_some hfind, expandName_enter hvalue hfresh,
        expandName_enter ((h _).trans hvalue) hfresh, ihv, ihr]

theorem inject_congr (h : ∀ name, injectedValue? source' name = injectedValue? source name)
    (s : Text) : inject source' s = inject source s := by
  rw [inject_eq, inject_eq, expand_congr h]

/-- The conditionals of a text come out alike in two contexts that choose alike. -/
theorem evaluate_congr
    (h : ∀ expression : Conditional,
      expression.choose context' policy = expression.choose context policy) (s : Text) :
    evaluate context' policy s = evaluate context policy s := by
  have hstep : ∀ state : Evaluation,
      state.step s.toArray (.ofText s) context' policy =
        state.step s.toArray (.ofText s) context policy := by
    intro state
    simp only [Evaluation.step, h]
  rw [evaluate, evaluate]
  generalize Evaluation.start s.toArray = state
  fun_induction Evaluation.run s.toArray (.ofText s) context policy state with
  | case1 state fault hfault => rw [Evaluation.run_eq, hstep, hfault]
  | case2 state hdone => rw [Evaluation.run_eq, hstep, hdone]
  | case3 state next hnext ih =>
      rw [Evaluation.run_eq, hstep, hnext]
      exact ih

/-- A document renders alike in two contexts that answer alike all that it asks. -/
theorem Document.render_congr {document : Document} {config : Config}
    (hvalues : ∀ name, injectedValue? (document.source context') name =
      injectedValue? (document.source context) name)
    (hchoose : ∀ expression : Conditional, expression.choose context' config.variablePolicy =
      expression.choose context config.variablePolicy) :
    document.render context' config = document.render context config := by
  have hinjected : document.injected context' config = document.injected context config := by
    simp only [injected, inject_congr hvalues]
  have hevaluated : ∀ s, evaluated context' config s = evaluated context config s := by
    intro s
    simp only [evaluated, evaluate_congr hchoose]
  simp only [render, hinjected, hevaluated]

end StoryTemplate
