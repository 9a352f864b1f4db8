import StoryTemplate.Proofs.Conditional.Recursion
import StoryTemplate.Proofs.Injection.Recursion
import StoryTemplate.Proofs.Session

/-! # Extensions — a success that only read what was set

    Under the strict policy a look-up that finds nothing is a fault.  So a rendering
    that succeeds has found every name that it looked up, and it comes to the same
    wherever these names keep their values: nothing is known of the names that it did
    not look up, and the policy was never asked.

    Two runs are kept together by what they do in one step: a pass of the second
    succeeds where the pass of the first does, and with the same outcome
    (`choose_extends`, `expand_extends`), so every stage does (`settle_of_pass`).

    Main fact: `render_strict_stable`. -/

namespace StoryTemplate

/-! ## More that is set -/

/-- The first dictionary binds every name that the second one binds, and to the same
    value. -/
def Dict.Extends {α : Type} (larger d : Dict α) : Prop :=
  ∀ name value, d.get? name = some value → larger.get? name = some value

/-- The first context agrees with the second one on every flag, text and injection that
    is set there. -/
structure Context.Extends (larger context : Context) : Prop where
  flags : larger.flags.Extends context.flags
  texts : larger.texts.Extends context.texts
  injections : larger.injections.Extends context.injections

variable {larger context : Context} {source source' : Dict Text} {s : Text}

/-- Writing the same pairs to both keeps what the first has more. -/
theorem Dict.Extends.insertAll {α : Type} {larger d : Dict α} (h : larger.Extends d)
    (pairs : List (Text × α)) : (larger.insertAll pairs).Extends (d.insertAll pairs) := by
  intro name value hget
  rw [get?_insertAll, Option.or_eq_some_iff] at hget ⊢
  rcases hget with hwritten | ⟨hnone, hbefore⟩
  · exact .inl hwritten
  · exact .inr ⟨hnone, h name value hbefore⟩

theorem Dict.Extends.injectedValue (h : source'.Extends source) {name value : Text}
    (hvalue : injectedValue? source name = some value) :
    injectedValue? source' name = some value := by
  rw [injectedValue?, Option.filter_eq_some_iff] at hvalue ⊢
  exact ⟨h name value hvalue.1, hvalue.2⟩

theorem Context.Extends.filledText (h : larger.Extends context) {name value : Text}
    (hvalue : context.filledText? name = some value) : larger.filledText? name = some value := by
  rw [filledText?, Option.filter_eq_some_iff] at hvalue ⊢
  exact ⟨h.texts name value hvalue.1, hvalue.2⟩

/-! ## One pass -/

/-- A value that is put in without a fault is put in alike from a larger source. -/
theorem expand_extends (h : source'.Extends source) {chain : List Text} {p : Pass}
    (hok : expand source chain s = .ok p) : expand source' chain s = .ok p := by
  induction chain, s using expand_induction source generalizing p with
  | plain chain s hfind =>
      rw [expand_none hfind] at hok ⊢
      exact hok
  | missing chain s found hfind hvalue =>
      rw [expand_some hfind, expandName_missing hvalue] at hok
      exact nomatch hok
  | cycle chain s found value hfind hvalue hcycle =>
      rw [expand_some hfind, expandName_cycle hvalue hcycle] at hok
      exact nomatch hok
  | enter chain s found value hfind hvalue hfresh ihv ihr =>
      rw [expand_some hfind, expandName_enter hvalue hfresh] at hok
      obtain ⟨inner, hinner, hok⟩ := bind_eq_ok_iff.1 hok
      obtain ⟨rest, hrest, hp⟩ := map_eq_ok_iff.1 hok
      rw [expand_some hfind, expandName_enter (h.injectedValue hvalue) hfresh]
      exact bind_eq_ok_iff.2 ⟨inner, ihv hinner, map_eq_ok_iff.2 ⟨rest, ihr hrest, hp⟩⟩

/-- A branch that is chosen under the strict policy is chosen by whatever agrees on what
    is set, under any policy. -/
theorem choose_extends (h : larger.Extends context) (policy : VariablePolicy)
    {expression : Conditional} {branch : Span}
    (hok : expression.choose context .strict = .ok branch) :
    expression.choose larger policy = .ok branch := by
  cases expression with
  | ternary flag whenTrue whenFalse =>
      rw [Conditional.choose] at hok ⊢
      cases hflag : context.flags.get? flag with
      | none =>
          rw [hflag] at hok
          cases hok
      | some value =>
          rw [hflag] at hok
          rw [h.flags flag value hflag]
          exact hok
  | matching name arms fallback =>
      rw [Conditional.choose] at hok ⊢
      cases htext : context.filledText? name with
      | none =>
          rw [htext] at hok
          cases hok
      | some value =>
          rw [htext] at hok
          rw [h.filledText htext]
          exact hok

/-- A step of an evaluation that succeeds is the same wherever the same branches are
    chosen. -/
theorem Evaluation.step_of_choose {src : Source} {braces : BraceMap} {context' : Context}
    {policy policy' : VariablePolicy}
    (hchoose : ∀ (expression : Conditional) (branch : Span),
      expression.choose context policy = .ok branch →
        expression.choose context' policy' = .ok branch)
    {state : Evaluation} {next : Option Evaluation}
    (hstep : state.step src braces context policy = .ok next) :
    state.step src braces context' policy' = .ok next := by
  rw [step] at hstep ⊢
  cases hpending : state.pending with
  | nil =>
      rw [hpending] at hstep
      exact hstep
  | cons span others =>
      rw [hpending] at hstep
      dsimp only at hstep ⊢
      by_cases hopen : span.find (src.isAt '\x7b') < span.stop
      · rw [if_pos hopen] at hstep ⊢
        cases hparse : Conditional.parse? src braces (span.find (src.isAt '\x7b')) with
        | none =>
            rw [hparse] at hstep
            exact hstep
        | some found =>
            rw [hparse] at hstep
            dsimp only at hstep ⊢
            cases hbranch : found.1.choose context policy with
            | error fault =>
                rw [hbranch] at hstep
                cases hstep
            | ok branch =>
                rw [hbranch] at hstep
                rw [hchoose _ _ hbranch]
                exact hstep
      · rw [if_neg hopen] at hstep ⊢
        exact hstep

/-- So a pass that succeeds is the same there. -/
theorem evaluate_of_choose {context' : Context} {policy policy' : VariablePolicy}
    (hchoose : ∀ (expression : Conditional) (branch : Span),
      expression.choose context policy = .ok branch →
        expression.choose context' policy' = .ok branch)
    {p : Pass} (hok : evaluate context policy s = .ok p) :
    evaluate context' policy' s = .ok p := by
  rw [evaluate] at hok ⊢
  generalize Evaluation.start s.toArray = state at hok ⊢
  fun_induction Evaluation.run s.toArray (.ofText s) context policy state with
  | case1 state fault hfault => cases hok
  | case2 state hdone =>
      rw [Evaluation.run_eq, Evaluation.step_of_choose hchoose hdone]
      exact hok
  | case3 state next hnext ih =>
      rw [Evaluation.run_eq, Evaluation.step_of_choose hchoose hnext]
      exact ih hok

/-! ## Stages and renderings -/

/-- A stage that settles does so alike with passes that do what its own do wherever
    these succeed. -/
theorem settle_of_pass {α : Type} {stage : Stage} {limit : UInt64}
    {pass pass' : α → Except Fault (α × Nat)}
    (hpass : ∀ a result, pass a = .ok result → pass' a = .ok result) {a b : α}
    (h : settle stage limit pass a = .ok b) : settle stage limit pass' a = .ok b := by
  rw [settle] at h ⊢
  generalize (limit + 1).toNat = attempts at h ⊢
  fun_induction settleWithin stage limit pass attempts a with
  | case1 => cases h
  | case2 => cases h
  | case3 attempts a next hlast =>
      rw [settleWithin_succ (hpass a _ hlast)]
      exact (if_pos rfl).trans h
  | case4 attempts a next processed hfirst hbusy ih =>
      rw [settleWithin_succ (hpass a _ hfirst)]
      exact (if_neg hbusy).trans (ih h)

/-- A rendering that succeeds under the strict policy has read only what is set: it comes
    to the same under any policy, and in every context that agrees on what is set,
    whatever else is set there. -/
theorem render_strict_stable (template : Text) (context : Context) (config : Config)
    (rendered : Rendered) (h : render template context config.strict = .ok rendered)
    (policy : VariablePolicy) (larger : Context) (hlarger : larger.Extends context) :
    render template larger { config with variablePolicy := policy } = .ok rendered := by
  obtain ⟨document, hread, hrender⟩ := bind_eq_ok_iff.1 h
  obtain ⟨s, hs, hrender⟩ := bind_eq_ok_iff.1 hrender
  obtain ⟨t, ht, hrender⟩ := bind_eq_ok_iff.1 hrender
  have hinjected : document.injected larger { config with variablePolicy := policy } = .ok s := by
    refine settle_of_pass (fun u result hpass => ?_) hs
    obtain ⟨p, hp, hresult⟩ := map_eq_ok_iff.1 hpass
    rw [inject_eq] at hp
    have hp' := expand_extends (hlarger.injections.insertAll document.injections) hp
    rw [← inject_eq] at hp'
    exact map_eq_ok_iff.2 ⟨p, hp', hresult⟩
  have hevaluated :
      Document.evaluated larger { config with variablePolicy := policy } s = .ok t := by
    refine settle_of_pass (fun u result hpass => ?_) ht
    obtain ⟨p, hp, hresult⟩ := map_eq_ok_iff.1 hpass
    have hp' := evaluate_of_choose (fun _ _ => choose_extends hlarger policy) hp
    exact map_eq_ok_iff.2 ⟨p, hp', hresult⟩
  -- The code section and the anchors ask for no variable.
  exact bind_eq_ok_iff.2 ⟨document, hread, bind_eq_ok_iff.2 ⟨s, hinjected,
    bind_eq_ok_iff.2 ⟨t, hevaluated, hrender⟩⟩⟩

/-- The flag of the branch that is not chosen is not set, and may be set to anything. -/
theorem render_strict_stable_unread :
    let context : Context :=
      { flags := .ofList [("f".toList, true)], texts := .ofList [("m".toList, "b".toList)]
        injections := .ofList [("n".toList, "\x7b m:a x |:b \x7b< k:v y \x7d | z \x7d".toList)] }
    let larger : Context :=
      { flags := .ofList [("f".toList, true), ("g".toList, true)]
        texts := .ofList [("m".toList, "b".toList), ("o".toList, "a".toList)]
        injections := .ofList [("n".toList, "\x7b m:a x |:b \x7b< k:v y \x7d | z \x7d".toList),
          ("q".toList, "Q".toList)] }
    let template := "\x7b f ? \x7b>n\x7d | \x7b g ? u | w \x7d \x7d".toList
    let rendered : Rendered :=
      ⟨"y".toList, [⟨"y".toList, 0, .ofList [("k".toList, "v".toList)]⟩], []⟩
    render template context ({} : Config).strict = .ok rendered ∧ larger.Extends context ∧
      render template larger { variablePolicy := .lenient } = .ok rendered := by
  intro context larger template rendered
  have hstrict : render template context ({} : Config).strict = .ok rendered := by decide +kernel
  have hlarger : larger.Extends context := by
    have extends_of_entries : ∀ {α : Type} {larger d : Dict α},
        (∀ entry ∈ d.entries, larger.get? entry.1 = some entry.2) → larger.Extends d :=
      fun h name value hget => h (name, value) (Dict.get?_eq_some_iff.1 hget)
    exact ⟨extends_of_entries (by decide), extends_of_entries (by decide),
      extends_of_entries (by decide)⟩
  exact ⟨hstrict, hlarger,
    render_strict_stable template context {} rendered hstrict .lenient larger hlarger⟩

end StoryTemplate
