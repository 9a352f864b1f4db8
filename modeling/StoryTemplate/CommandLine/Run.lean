import StoryTemplate.CommandLine.Options
import StoryTemplate.Report.Basic
import StoryTemplate.VariablesFile

/-! # Running a command line

    A run reads its files, sets up an engine from the variables file and the
    options on top of it, and renders the template or takes its headers.  It
    writes its output piece by piece, and what it has written when it fails stays
    written.

    The readers and writers of structured data are no part of a run: it is given them
    as its `Notations`. -/

namespace StoryTemplate.CommandLine

/-! ## Notations -/

/-- The notations of structured data. -/
structure Notations where
  /-- Reads a variables file in JSON notation. -/
  readJson : Text → Option VariablesFile
  /-- Reads a variables file in YAML notation, where there may be nothing in it. -/
  readYaml : Text → Option (Option VariablesFile)
  /-- Writes a result in JSON notation, without a line break at its end. -/
  writeJson : Report → Text
  /-- Writes a result in YAML notation. -/
  writeYaml : Report → Text

/-- Reads the content of the variables file at the path. -/
def Notations.read (notations : Notations) (path content : Text) : Option VariablesFile :=
  if VariablesFile.isJsonPath path then notations.readJson content
  else (notations.readYaml content).map (·.getD {})

/-! ## Input -/

/-- Why there is no text to read. -/
inductive ReadFault
  | missing
  | notText
  | other (reason : String)
  deriving DecidableEq, Repr

/-- The wording of a fault. -/
def ReadFault.message : ReadFault → String
  | .missing => "No such file or directory (os error 2)"
  | .notText => "stream did not contain valid UTF-8"
  | .other reason => reason

/-- What a run can read. -/
structure Inputs where
  file : Text → Except ReadFault Text
  stdin : Except ReadFault Text

/-- Whether the template is read from standard input. -/
def Options.readsStdin (options : Options) : Bool := options.file.all (· = ['-'])

/-- The paths of the files that a run reads. -/
def Options.paths (options : Options) : List Text :=
  options.vars.toList ++ if options.readsStdin then [] else options.file.toList

/-- The template. -/
def readTemplate (inputs : Inputs) (options : Options) : Except String Text :=
  match options.file with
  | some path =>
    if path = ['-'] then fromStdin
    else (inputs.file path).mapError fun fault =>
      "failed to read template " ++ String.ofList path ++ ": " ++ fault.message
  | none => fromStdin
where
  fromStdin : Except String Text :=
    inputs.stdin.mapError fun fault => "failed to read template from stdin: " ++ fault.message

/-- The variables file; an empty one if none is asked for. -/
def readVariables (notations : Notations) (inputs : Inputs) (options : Options) :
    Except String VariablesFile :=
  match options.vars with
  | none => .ok {}
  | some path => do
    let content ← (inputs.file path).mapError fun fault =>
      "failed to read variables file " ++ String.ofList path ++ ": " ++ fault.message
    match notations.read path content with
    | some file => return file
    | none =>
      let language := if VariablesFile.isJsonPath path then "JSON" else "YAML"
      throw ("invalid " ++ language ++ " in " ++ String.ofList path)

/-! ## Output -/

/-- The configuration of a run: that of the file, made strict and given a bound
    if the options say so. -/
def Options.config (options : Options) (file : VariablesFile) : Config :=
  let config := file.config.getD {}
  let config := if options.strict then config.strict else config
  match options.maxPasses with
  | some passes => config.withMaxPasses passes
  | none => config

/-- The engine of a run: the variables file first, and then the options, each
    kind in the order of the command line. -/
def Options.engine (options : Options) (file : VariablesFile) : Engine :=
  let engine := file.apply { config := options.config file }
  let engine := options.flags.foldl
    (fun engine (name, value) => engine.setVariable name (.flag value)) engine
  let engine := options.texts.foldl
    (fun engine (name, value) => engine.setVariable name (.text value)) engine
  options.injections.foldl (fun engine (name, value) => engine.inject name value) engine

/-- A run writes to the output, and in the end it has a value or fails with a
    message. -/
abbrev Run (α : Type) := ExceptT String (StateM Text) α

/-- Writes the text after all that is written. -/
def print (text : Text) : Run Unit := modify (· ++ text)

/-- Writes a result in the chosen notation; as text it is what `text` writes. -/
def printResult (notations : Notations) (options : Options) (text : Run Unit) (report : Report) :
    Run Unit :=
  match options.format.getD .text with
  | .text => text
  | .json => print (notations.writeJson report ++ ['\n'])
  | .yaml => print (notations.writeYaml report)

/-- The command `render`. -/
def runRender (notations : Notations) (inputs : Inputs) (options : Options) : Run Unit := do
  let file ← readVariables notations inputs options
  let template ← readTemplate inputs options
  match ((options.engine file).process template).1 with
  | .error fault => throw ("failed to render template: " ++ fault.message)
  | .ok rendered =>
    printResult notations options (print (rendered.text ++ ['\n'])) rendered.report

/-- Writes a line of a key and a value for every header. -/
def printHeaders (headers : Dict Text) : Run Unit :=
  headers.entries.forM fun (key, value) => print (key ++ ' ' :: value ++ ['\n'])

/-- The command `headers`. -/
def runHeaders (notations : Notations) (inputs : Inputs) (options : Options) : Run Unit := do
  let template ← readTemplate inputs options
  let headers := ({} : Engine).headers template
  printResult notations options (printHeaders headers) headers.report

/-- The command. -/
def Command.run (notations : Notations) (inputs : Inputs) (options : Options) :
    Command → Run Unit
  | .render => runRender notations inputs options
  | .headers => runHeaders notations inputs options

/-! ## Outcomes -/

/-- How a run ends. -/
structure Outcome where
  exitCode : Nat
  stdout : Text
  /-- The line for standard error. -/
  message : Option String
  deriving DecidableEq, Repr

/-- What the program says of itself. -/
def versionText : Text := "wordplay 0.4.0\n".toList

/-- A short account of the commands. -/
def helpText : Text :=
  ("Render Wordplay story templates\n\n" ++
   "Usage: wordplay render [FILE] [--vars FILE] [--flag NAME[=BOOL]] [--var NAME=VALUE]\n" ++
   "                       [--inject ID=VALUE] [--strict] [--max-passes N] [--format FORMAT]\n" ++
   "       wordplay headers [FILE] [--format FORMAT]\n").toList

/-- The end of a run that begins with nothing written. -/
def Outcome.ofRun (run : Run Unit) : Outcome :=
  match run.run.run [] with
  | (.ok (), stdout) => ⟨0, stdout, none⟩
  | (.error message, stdout) => ⟨1, stdout, some message⟩

/-- The end of a run that a request asks for. -/
def Request.outcome (notations : Notations) (inputs : Inputs) : Request → Outcome
  | .version => ⟨0, versionText, none⟩
  | .help => ⟨0, helpText, none⟩
  | .run command options => .ofRun (command.run notations inputs options)

/-- The paths of the files that a request needs. -/
def Request.paths : Request → List Text
  | .run _ options => options.paths
  | _ => []

/-- Whether a request needs standard input. -/
def Request.readsStdin : Request → Bool
  | .run _ options => options.readsStdin
  | _ => false

/-- The end of a run with a command line that makes no sense. -/
def Outcome.ofUsage (fault : UsageFault) : Outcome := ⟨2, [], some fault.message⟩

/-- The end of a run with the arguments. -/
def outcome (notations : Notations) (inputs : Inputs) (arguments : List Text) : Outcome :=
  match read arguments with
  | .error fault => .ofUsage fault
  | .ok request => request.outcome notations inputs

end StoryTemplate.CommandLine
