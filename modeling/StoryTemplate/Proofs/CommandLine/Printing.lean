import StoryTemplate.CommandLine.Run
import StoryTemplate.Proofs.Session

/-! # Printing — a run prints all or nothing

    A run can fail while it reads its files and when its template has a fault.
    It prints after all of that, and printing does not fail: so every run either
    prints its whole output or fails with nothing printed.

    Main facts: `Fails.failsWith` (a command that fails has printed nothing),
    `prints_render` (a rendering that comes out well is printed) and
    `fails_or_prints` (there is no third way to end). -/

namespace StoryTemplate.CommandLine

/-! ## Output -/

namespace Run

/-- The run prints the text, and does not fail. -/
def Prints (run : Run Unit) (text : Text) : Prop :=
  ∀ before, run.run.run before = (.ok (), before ++ text)

/-- The run fails with the message, and prints nothing. -/
def FailsWith (run : Run Unit) (message : String) : Prop :=
  ∀ before, run.run.run before = (.error message, before)

theorem prints_print (text : Text) : Prints (print text) text := by
  intro before
  rfl

theorem prints_nothing : Prints (pure ()) [] := by
  intro before
  rw [List.append_nil]
  rfl

theorem Prints.seq {first second : Run Unit} {a b : Text} (hfirst : first.Prints a)
    (hsecond : second.Prints b) : Prints (first >>= fun _ => second) (a ++ b) := by
  intro before
  have hrun : (first >>= fun _ => second).run.run before = second.run.run (before ++ a) := by
    rw [ExceptT.run_bind, StateT.run_bind, hfirst]
    rfl
  rw [hrun, hsecond, List.append_assoc]

/-- A run that begins with a reading goes on with what is read. -/
theorem read_ok {α : Type} (a : α) (next : α → Run Unit) :
    ((liftM (.ok a : Except String α) : Run α) >>= next) = next a := rfl

/-- A run that begins with a reading fails if that fails. -/
theorem failsWith_read {α : Type} (message : String) (next : α → Run Unit) :
    FailsWith ((liftM (.error message : Except String α) : Run α) >>= next) message := by
  intro before
  rfl

end Run

open Run

theorem prints_printHeaders (headers : Dict Text) :
    (printHeaders headers).Prints
      (headers.entries.flatMap fun (key, value) => key ++ ' ' :: value ++ ['\n']) := by
  rw [printHeaders]
  induction headers.entries with
  | nil => exact prints_nothing
  | cons entry entries ih =>
      rw [List.flatMap_cons]
      exact (prints_print _).seq ih

/-- A result is printed in every notation, and as text in the wording for that. -/
theorem prints_printResult (notations : Notations) (options : Options) {text : Run Unit}
    {output : Text} (htext : text.Prints output) (report : Report) :
    ∃ printed, (printResult notations options text report).Prints printed ∧
      (options.format.getD .text = .text → printed = output) := by
  rw [printResult]
  cases options.format.getD .text with
  | text => exact ⟨output, htext, fun _ => rfl⟩
  | json => exact ⟨_, prints_print _, nofun⟩
  | yaml => exact ⟨_, prints_print _, nofun⟩

/-! ## Ends of runs -/

/-- What a command can fail of: a file that cannot be read or makes no sense, and a
    fault of the template. -/
inductive Fails (notations : Notations) (inputs : Inputs) (options : Options) :
    Command → String → Prop
  | variablesFile {message : String} (h : readVariables notations inputs options = .error message) :
      Fails notations inputs options .render message
  | template {file : VariablesFile} {message : String}
      (hfile : readVariables notations inputs options = .ok file)
      (h : readTemplate inputs options = .error message) :
      Fails notations inputs options .render message
  | rendering {file : VariablesFile} {template : Text} {fault : Fault}
      (hfile : readVariables notations inputs options = .ok file)
      (htemplate : readTemplate inputs options = .ok template)
      (h : render template (options.engine file).context (options.engine file).config =
        .error fault) :
      Fails notations inputs options .render ("failed to render template: " ++ fault.message)
  | headers {message : String} (h : readTemplate inputs options = .error message) :
      Fails notations inputs options .headers message

section Ends

variable {notations : Notations} {inputs : Inputs} {options : Options}

/-- A command that fails has printed nothing. -/
theorem Fails.failsWith {command : Command} {message : String}
    (h : Fails notations inputs options command message) :
    (command.run notations inputs options).FailsWith message := by
  cases h with
  | variablesFile h =>
      rw [Command.run, runRender, h]
      exact failsWith_read _ _
  | template hfile h =>
      rw [Command.run, runRender, hfile, read_ok, h]
      exact failsWith_read _ _
  | rendering hfile htemplate h =>
      rw [Command.run, runRender, hfile, read_ok, htemplate, read_ok, Engine.process_fst, h]
      intro before
      rfl
  | headers h =>
      rw [Command.run, runHeaders, h]
      exact failsWith_read _ _

/-- A rendering that comes out well is printed. -/
theorem prints_render {file : VariablesFile} {template : Text} {rendered : Rendered}
    (hfile : readVariables notations inputs options = .ok file)
    (htemplate : readTemplate inputs options = .ok template)
    (h : render template (options.engine file).context (options.engine file).config =
      .ok rendered) :
    ∃ printed, (Command.render.run notations inputs options).Prints printed ∧
      (options.format.getD .text = .text → printed = rendered.text ++ ['\n']) := by
  rw [Command.run, runRender, hfile, read_ok, htemplate, read_ok, Engine.process_fst, h]
  exact prints_printResult notations options (prints_print _) rendered.report

/-- Every command fails or prints, and never does both. -/
theorem fails_or_prints (notations : Notations) (inputs : Inputs) (options : Options)
    (command : Command) :
    (∃ message, Fails notations inputs options command message) ∨
      ∃ printed, (command.run notations inputs options).Prints printed := by
  cases command with
  | render =>
      cases hfile : readVariables notations inputs options with
      | error message => exact .inl ⟨_, .variablesFile hfile⟩
      | ok file =>
          cases htemplate : readTemplate inputs options with
          | error message => exact .inl ⟨_, .template hfile htemplate⟩
          | ok template =>
              cases h : render template (options.engine file).context
                  (options.engine file).config with
              | error fault => exact .inl ⟨_, .rendering hfile htemplate h⟩
              | ok rendered =>
                  obtain ⟨printed, hprints, -⟩ := prints_render hfile htemplate h
                  exact .inr ⟨printed, hprints⟩
  | headers =>
      cases htemplate : readTemplate inputs options with
      | error message => exact .inl ⟨_, .headers htemplate⟩
      | ok template =>
          obtain ⟨printed, hprints, -⟩ := prints_printResult notations options
            (prints_printHeaders (({} : Engine).headers template))
            (({} : Engine).headers template).report
          refine .inr ⟨printed, ?_⟩
          rw [Command.run, runHeaders, htemplate, read_ok]
          exact hprints

end Ends

theorem Outcome.ofRun_prints {run : Run Unit} {text : Text} (h : run.Prints text) :
    ofRun run = ⟨0, text, none⟩ := by
  rw [ofRun, h]
  rfl

theorem Outcome.ofRun_failsWith {run : Run Unit} {message : String} (h : run.FailsWith message) :
    ofRun run = ⟨1, [], some message⟩ := by
  rw [ofRun, h]

end StoryTemplate.CommandLine
