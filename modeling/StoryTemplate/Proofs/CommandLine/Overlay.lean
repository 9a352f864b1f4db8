import StoryTemplate.Proofs.Code.Written
import StoryTemplate.Proofs.CommandLine.Printing

/-! # Overlays — the command line written over the variables file

    A run of the command `render` is a rendering against a context that nobody
    keeps: the dictionaries of the variables file with the options written over
    them, where the last option for a name counts.  A flag, a text and an
    injection never meet, so only the order within a kind matters.

    Main facts: `Options.engine_eq` (the engine that renders) and `run_overlays`. -/

namespace StoryTemplate

/-! ## Engines that are set up -/

namespace Engine

variable (engine : Engine)

theorem foldl_setFlag (pairs : List (Text × Bool)) :
    pairs.foldl (fun engine (name, value) => engine.setVariable name (.flag value)) engine =
      { engine with
        context := { engine.context with flags := engine.context.flags.insertAll pairs } } := by
  induction pairs generalizing engine with
  | nil => rfl
  | cons pair pairs ih => exact ih _

theorem foldl_setText (pairs : List (Text × Text)) :
    pairs.foldl (fun engine (name, value) => engine.setVariable name (.text value)) engine =
      { engine with
        context := { engine.context with texts := engine.context.texts.insertAll pairs } } := by
  induction pairs generalizing engine with
  | nil => rfl
  | cons pair pairs ih => exact ih _

theorem foldl_inject (pairs : List (Text × Text)) :
    pairs.foldl (fun engine (name, value) => engine.inject name value) engine =
      { engine with context := engine.context.extendInjections pairs } := by
  induction pairs generalizing engine with
  | nil => rfl
  | cons pair pairs ih => exact ih _

end Engine

/-- The context that a variables file holds. -/
def VariablesFile.context (file : VariablesFile) : Context :=
  ⟨file.flags, file.texts, file.injections⟩

/-- An engine with nothing set takes what the file holds. -/
theorem VariablesFile.apply_eq (file : VariablesFile) (config : Config) :
    file.apply { config := config } = ⟨file.context, config⟩ := by
  rw [apply, Engine.foldl_setFlag, Engine.foldl_setText, Engine.foldl_inject]
  show Engine.mk ⟨Dict.ofList file.flags.entries, Dict.ofList file.texts.entries,
    Dict.ofList file.injections.entries⟩ config = _
  rw [Dict.ofList_entries, Dict.ofList_entries, Dict.ofList_entries]
  rfl

namespace CommandLine

/-- The options hold what is given on the command line, each kind in its order. -/
structure Options.Collects (options : Options) (given : List Write) : Prop where
  flags : options.flags = given.filterMap Write.flag?
  texts : options.texts = given.filterMap Write.text?
  injections : options.injections = given.filterMap Write.injection?

/-- The engine that renders: whatever is given is written over what the file holds,
    in the order of the command line. -/
theorem Options.engine_eq {options : Options} {given : List Write}
    (h : options.Collects given) (file : VariablesFile) :
    options.engine file = ⟨given.foldl Context.write file.context, options.config file⟩ := by
  rw [Options.engine, VariablesFile.apply_eq, Engine.foldl_setFlag, Engine.foldl_setText,
    Engine.foldl_inject, Context.foldl_write, h.flags, h.texts, h.injections]
  rfl

theorem Options.config_eq (options : Options) (file : VariablesFile) :
    options.config file =
      { file.config.getD {} with
        variablePolicy := if options.strict then .strict else (file.config.getD {}).variablePolicy
        maxPasses := options.maxPasses.elim (file.config.getD {}).maxPasses (max · 1) } := by
  rw [Options.config]
  cases options.strict with
  | false =>
      cases options.maxPasses with
      | none => rfl
      | some passes => rfl
  | true =>
      cases options.maxPasses with
      | none => rfl
      | some passes => rfl

/-! ## Runs -/

/-- The command line is the renderer over an overlay, and prints all or nothing, whatever
    readers and writers of structured data it is run with.  Whatever is given, with the
    kinds mixed in any order, a flag, a text or an injection of the engine that renders
    has the value last given for it, else the one of the file; the configuration is that
    of the file with the policy and the bound replaced if the options say so; and a
    rendering that comes out well is printed with a line break.  A command that has failed
    has printed nothing, and it fails exactly for its files and for a fault of its
    template. -/
theorem run_overlays (notations : Notations) (inputs : Inputs) (options : Options)
    (given : List Write) (hgiven : options.Collects given) :
    (∀ file template, readVariables notations inputs options = .ok file →
      readTemplate inputs options = .ok template →
      let context := (options.engine file).context
      let config := (options.engine file).config
      let base := file.config.getD {}
      (∀ name, context.flags.get? name =
        (lastValue? (given.filterMap Write.flag?) name).or (file.flags.get? name)) ∧
      (∀ name, context.texts.get? name =
        (lastValue? (given.filterMap Write.text?) name).or (file.texts.get? name)) ∧
      (∀ name, context.injections.get? name =
        (lastValue? (given.filterMap Write.injection?) name).or (file.injections.get? name)) ∧
      config = { base with
        variablePolicy := if options.strict then .strict else base.variablePolicy
        maxPasses := options.maxPasses.elim base.maxPasses (max · 1) } ∧
      ∀ rendered, render template context config = .ok rendered →
        options.format.getD .text = .text →
        (Request.run .render options).outcome notations inputs =
          ⟨0, rendered.text ++ ['\n'], none⟩) ∧
    ∀ command,
      (∀ message, Fails notations inputs options command message →
        (Request.run command options).outcome notations inputs = ⟨1, [], some message⟩) ∧
      (((Request.run command options).outcome notations inputs).exitCode ≠ 0 →
        ((Request.run command options).outcome notations inputs).stdout = [] ∧
          ∃ message, Fails notations inputs options command message) := by
  constructor
  · intro file template hfile htemplate context config base
    have hcontext : context =
        ⟨file.flags.insertAll (given.filterMap Write.flag?),
          file.texts.insertAll (given.filterMap Write.text?),
          file.injections.insertAll (given.filterMap Write.injection?)⟩ := by
      show (options.engine file).context = _
      rw [Options.engine_eq hgiven, Context.foldl_write]
      rfl
    refine ⟨fun name => ?_, fun name => ?_, fun name => ?_, ?_, ?_⟩
    · rw [hcontext]
      exact Dict.get?_insertAll _ _ name
    · rw [hcontext]
      exact Dict.get?_insertAll _ _ name
    · rw [hcontext]
      exact Dict.get?_insertAll _ _ name
    · show (options.engine file).config = _
      rw [Options.engine_eq hgiven, Options.config_eq]
    · intro rendered hrender htext
      obtain ⟨printed, hprints, hprinted⟩ := prints_render hfile htemplate hrender
      rw [Request.outcome, Outcome.ofRun_prints hprints, hprinted htext]
  · intro command
    have hfails : ∀ message, Fails notations inputs options command message →
        (Request.run command options).outcome notations inputs = ⟨1, [], some message⟩ :=
      fun message h => Outcome.ofRun_failsWith h.failsWith
    refine ⟨hfails, fun hexit => ?_⟩
    rcases fails_or_prints notations inputs options command with ⟨message, h⟩ | ⟨printed, hprints⟩
    · rw [hfails message h]
      exact ⟨rfl, message, h⟩
    · rw [Request.outcome, Outcome.ofRun_prints hprints] at hexit
      exact absurd rfl hexit

/-- Of two values for the lamp the later one counts, though a text of that name is given
    after both; the inn is only in the file, and the file is not strict. -/
theorem run_overlays_lamp :
    let content := ("\x7b\"flags\": \x7b\"lamp\": true\x7d, \"injections\": \x7b\"who\": \"Cy\", " ++
      "\"place\": \"inn\"\x7d, \"config\": \x7b\"max_passes\": 9\x7d\x7d").toList
    let file : VariablesFile :=
      { flags := .ofList [("lamp".toList, true)]
        injections := .ofList [("who".toList, "Cy".toList), ("place".toList, "inn".toList)]
        config := some { maxPasses := 9 } }
    let notations : Notations :=
      { readJson := fun found => if found = content then some file else none
        readYaml := fun found => if found = [] then some none else none
        writeJson := fun _ => []
        writeYaml := fun _ => [] }
    let template := "\x7b> who\x7d, \x7b> place\x7d, \x7blamp ? lit | dark\x7d".toList
    let inputs : Inputs :=
      ⟨fun path => if path = "a.json".toList then .ok content else .error .missing, .ok template⟩
    let given : List Write := [.flag "lamp".toList true, .text "mood".toList "sad".toList,
      .injection "who".toList "Ann".toList, .flag "lamp".toList false,
      .text "lamp".toList "on".toList, .injection "who".toList "Bo".toList]
    let options : Options :=
      { file := some "-".toList, vars := some "a.json".toList,
        flags := [("lamp".toList, true), ("lamp".toList, false)],
        texts := [("mood".toList, "sad".toList), ("lamp".toList, "on".toList)],
        injections := [("who".toList, "Ann".toList), ("who".toList, "Bo".toList)],
        strict := true, maxPasses := some 0 }
    options.Collects given ∧ readVariables notations inputs options = .ok file ∧
      (options.engine file).context.flags.get? "lamp".toList = some false ∧
      (options.engine file).context.texts.get? "lamp".toList = some "on".toList ∧
      (options.engine file).context.injections.get? "who".toList = some "Bo".toList ∧
      (options.engine file).context.injections.get? "place".toList = some "inn".toList ∧
      (options.engine file).config = { variablePolicy := .strict, maxPasses := 1 } ∧
      (Request.run .render options).outcome notations inputs =
        ⟨0, "Bo, inn, dark\n".toList, none⟩ := by
  intro content file notations template inputs given options
  have hgiven : options.Collects given := ⟨rfl, rfl, rfl⟩
  have hfile : readVariables notations inputs options = .ok file := by decide +kernel
  obtain ⟨hrun, -⟩ := run_overlays notations inputs options given hgiven
  obtain ⟨hflags, htexts, hinjections, hconfig, hprinted⟩ := hrun file template hfile rfl
  refine ⟨hgiven, hfile, ?_, ?_, ?_, ?_, hconfig, ?_⟩
  · exact (hflags _).trans (by decide +kernel)
  · exact (htexts _).trans (by decide +kernel)
  · exact (hinjections _).trans (by decide +kernel)
  · exact (hinjections _).trans (by decide +kernel)
  · exact hprinted ⟨"Bo, inn, dark".toList, [], []⟩ (by decide +kernel) rfl

end CommandLine
end StoryTemplate
