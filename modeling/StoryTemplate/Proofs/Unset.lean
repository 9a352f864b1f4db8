import StoryTemplate.Proofs.Session

/-! # Unset — an empty value is no value

    A text variable or an injection that is empty answers every look-up like one that
    was never set, and under the lenient policy so does a flag that is false.  So these
    entries can be left out of a context, and no rendering tells the difference: not
    by its text, and not by its fault either.

    An empty injection is looked up below the declarations of the template.  Leaving it
    out uncovers nothing, because a declaration hides it whether it is there or not.

    Main fact: `render_without_unset`. -/

namespace StoryTemplate

/-! ## What is left out -/

/-- The bindings of values with at least one character. -/
def Dict.filled (d : Dict Text) : Dict Text := d.filter fun _ value => value ≠ []

namespace Context

/-- The context without its empty text variables and its empty injections. -/
def withoutEmpty (context : Context) : Context :=
  { context with texts := context.texts.filled, injections := context.injections.filled }

/-- The context without the flags that are false. -/
def withoutFalse (context : Context) : Context :=
  { context with flags := context.flags.filter fun _ value => value }

end Context

/-! ## Look-ups -/

theorem Dict.get?_filled (d : Dict Text) (name : Text) :
    d.filled.get? name = (d.get? name).filter (· ≠ []) :=
  d.get?_filter _ name

/-- Under any declarations the empty injections make no difference. -/
theorem injectedValue_filled (d : Dict Text) (pairs : List (Text × Text)) (name : Text) :
    injectedValue? (d.filled.insertAll pairs) name = injectedValue? (d.insertAll pairs) name := by
  rw [injectedValue?, injectedValue?, Dict.get?_insertAll, Dict.get?_insertAll, Dict.get?_filled]
  cases lastValue? pairs name with
  | some value => rfl
  | none =>
      rw [Option.none_or, Option.none_or, Option.filter_filter]
      simp only [Bool.and_self]

namespace Context

variable (context : Context)

theorem filledText?_withoutEmpty (name : Text) :
    context.withoutEmpty.filledText? name = context.filledText? name := by
  show (context.texts.filled.get? name).filter _ = (context.texts.get? name).filter _
  rw [Dict.get?_filled, Option.filter_filter]
  simp only [Bool.and_self]

/-- No branch is chosen for an empty text. -/
theorem choose_withoutEmpty (policy : VariablePolicy) (expression : Conditional) :
    expression.choose context.withoutEmpty policy = expression.choose context policy := by
  cases expression with
  | ternary flag whenTrue whenFalse => rfl
  | matching name arms fallback =>
      rw [Conditional.choose, Conditional.choose, filledText?_withoutEmpty]

/-- Under the lenient policy a flag that is not set is false. -/
theorem choose_withoutFalse (expression : Conditional) :
    expression.choose context.withoutFalse .lenient = expression.choose context .lenient := by
  cases expression with
  | ternary flag whenTrue whenFalse =>
      have hflag : context.withoutFalse.flags.get? flag =
          (context.flags.get? flag).filter fun value => value := context.flags.get?_filter _ flag
      rw [Conditional.choose, Conditional.choose, hflag]
      cases context.flags.get? flag with
      | none => rfl
      | some value =>
          cases value with
          | false => rfl
          | true => rfl
  | matching name arms fallback => rfl

end Context

/-! ## Renderings -/

namespace Document

variable (document : Document) (context : Context) (config : Config)

theorem render_withoutEmpty :
    document.render context.withoutEmpty config = document.render context config :=
  render_congr (injectedValue_filled context.injections document.injections)
    (context.choose_withoutEmpty config.variablePolicy)

theorem render_withoutFalse (hpolicy : config.variablePolicy = .lenient) :
    document.render context.withoutFalse config = document.render context config := by
  refine render_congr (fun _ => rfl) ?_
  rw [hpolicy]
  exact context.choose_withoutFalse

end Document

/-- A rendering comes to the same, success or fault, if the empty text variables and the
    empty injections are left out of its context; under the lenient policy the flags that
    are false may be left out as well. -/
theorem render_without_unset (template : Text) (context : Context) (config : Config) :
    render template context.withoutEmpty config = render template context config ∧
      render template context.withoutEmpty.withoutFalse { config with variablePolicy := .lenient } =
        render template context { config with variablePolicy := .lenient } := by
  constructor
  · rw [render, render]
    simp only [Document.render_withoutEmpty]
  · rw [render, render]
    simp only [Document.render_withoutEmpty, Document.render_withoutFalse]

/-- The strict policy tells a flag that is false from one that is not set. -/
example :
    let template := "\x7b f ? a | b \x7d".toList
    let context : Context := { flags := .ofList [("f".toList, false)] }
    let config : Config := { variablePolicy := .strict }
    render template context config = .ok ⟨"b".toList, [], []⟩ ∧
      render template context.withoutFalse config = .error (.unsetFlag "f".toList) := by
  decide +kernel

end StoryTemplate
