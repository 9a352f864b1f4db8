import StoryTemplate.Text.Integer
import StoryTemplate.Text.Split

/-! # Command lines — what a run is asked to do

    A command line names a command, `render` or `headers`, and then its options
    and at most one template file in any order.  A value stands in the argument
    of its option after an equals sign, or is the next argument, which then may
    not look like an option.  After `--` every argument is a file.

    Some options may be repeated, and the order of their values is kept; an
    option that says one thing may stand only once.

    What is said of runs is said of all `Options`, however they were read: `read` is
    the reading that the program itself is given. -/

namespace StoryTemplate.CommandLine

/-- How a result is written. -/
inductive Format
  | text
  | json
  | yaml
  deriving DecidableEq, Repr

/-- The options of the commands. -/
inductive OptionName
  | vars
  | flag
  | variable
  | inject
  | strict
  | maxPasses
  | format
  deriving DecidableEq, Repr

/-- What is wrong with a command line. -/
inductive UsageFault
  | noCommand
  | unknownCommand (name : Text)
  | unknownOption (argument : Text)
  | missingValue (option : Text)
  | unexpectedValue (option : Text)
  | repeatedOption (option : Text)
  | badValue (option value : Text)
  | unexpectedFile (path : Text)
  deriving DecidableEq, Repr

/-- The wording of a fault. -/
def UsageFault.message : UsageFault → String
  | .noCommand => "a command is needed: render or headers"
  | .unknownCommand name => "there is no command '" ++ String.ofList name ++ "'"
  | .unknownOption argument => "there is no option '" ++ String.ofList argument ++ "' here"
  | .missingValue option => "the option '" ++ String.ofList option ++ "' needs a value"
  | .unexpectedValue option => "the option '" ++ String.ofList option ++ "' takes no value"
  | .repeatedOption option => "the option '" ++ String.ofList option ++ "' is given twice"
  | .badValue option value =>
    "'" ++ String.ofList value ++ "' is no value for the option '" ++ String.ofList option ++ "'"
  | .unexpectedFile path => "'" ++ String.ofList path ++ "' is one file too many"

/-- What the arguments of a command say.  The command `headers` knows only the
    file and the format. -/
structure Options where
  /-- The template; standard input without a path, or for a single dash. -/
  file : Option Text := none
  vars : Option Text := none
  /-- In the order of the command line, and so are the next two. -/
  flags : List (Text × Bool) := []
  texts : List (Text × Text) := []
  injections : List (Text × Text) := []
  strict : Bool := false
  maxPasses : Option UInt64 := none
  format : Option Format := none
  deriving DecidableEq, Repr

/-- The commands. -/
inductive Command
  | render
  | headers
  deriving DecidableEq, Repr

/-- What a command line asks for. -/
inductive Request
  | run (command : Command) (options : Options)
  | version
  | help
  deriving DecidableEq, Repr

/-! ## Names -/

/-- The command with the name. -/
def Command.named? (name : Text) : Option Command :=
  if name = "render".toList then some .render
  else if name = "headers".toList then some .headers
  else none

/-- The option of the command with the name. -/
def Command.option? (command : Command) (name : Text) : Option OptionName :=
  let all := [("vars", OptionName.vars), ("flag", .flag), ("var", .variable), ("inject", .inject),
    ("strict", .strict), ("max-passes", .maxPasses), ("format", .format)]
  let own := match command with
    | .render => all
    | .headers => [("format", .format)]
  (own.find? fun (n, _) => n.toList = name).map Prod.snd

/-- The format with the name. -/
def Format.named? (name : Text) : Option Format :=
  if name = "text".toList then some .text
  else if name = "json".toList then some .json
  else if name = "yaml".toList then some .yaml
  else none

/-! ## Values -/

/-- Reads `NAME=VALUE`, divided at the first equals sign. -/
def assignment? (value : Text) : Option (Text × Text) :=
  (splitFirst '=' value).filter fun (name, _) => name ≠ []

/-- Reads `NAME`, `NAME=true` or `NAME=false`. -/
def flagAssignment? (value : Text) : Option (Text × Bool) :=
  let assigned := match splitFirst '=' value with
    | none => some (value, true)
    | some (name, value) =>
      if value = "true".toList then some (name, true)
      else if value = "false".toList then some (name, false)
      else none
  assigned.filter fun (name, _) => name ≠ []

/-- Reads a path, which has at least one character. -/
def path? (value : Text) : Option Text := if value = [] then none else some value

namespace Options

/-- Sets what may be set once. -/
def setOnce {α : Type} (option value : Text) (old : Option α) (read : Text → Option α) :
    Except UsageFault (Option α) :=
  match old, read value with
  | _, none => .error (.badValue option value)
  | some _, some _ => .error (.repeatedOption option)
  | none, some new => .ok (some new)

/-- Adds one more of what may be repeated. -/
def addTo {α : Type} (option value : Text) (old : List α) (read : Text → Option α) :
    Except UsageFault (List α) :=
  match read value with
  | none => .error (.badValue option value)
  | some new => .ok (old ++ [new])

/-- Sets the option to the value. -/
def set (options : Options) (option : Text) (value : Text) : OptionName → Except UsageFault Options
  | .vars => do return { options with vars := ← setOnce option value options.vars path? }
  | .flag => do return { options with flags := ← addTo option value options.flags flagAssignment? }
  | .variable => do
    return { options with texts := ← addTo option value options.texts assignment? }
  | .inject => do
    return { options with injections := ← addTo option value options.injections assignment? }
  | .maxPasses => do
    return { options with
      maxPasses := ← setOnce option value options.maxPasses readWord }
  | .format => do return { options with format := ← setOnce option value options.format Format.named? }
  | .strict => .error (.unexpectedValue option)

/-- Sets the file. -/
def setFile (options : Options) (path : Text) : Except UsageFault Options :=
  match options.file, path? path with
  | _, none => .error (.badValue "file".toList path)
  | some _, some _ => .error (.unexpectedFile path)
  | none, some path => .ok { options with file := some path }

end Options

/-! ## Reading arguments -/

/-- What a row of letters after a single dash asks for: more log output or help. -/
inductive Letters
  | verbose
  | version
  | help
  deriving DecidableEq, Repr

/-- Reads the letters after a single dash; the version can only be asked for
    before the command. -/
def letters? (beforeCommand : Bool) : Text → Option Letters
  | [] => some .verbose
  | 'v' :: rest => letters? beforeCommand rest
  | 'h' :: _ => some .help
  | 'V' :: _ => if beforeCommand then some .version else none
  | _ => none

/-- Whether the argument looks like an option. -/
def isOptionLike (argument : Text) : Bool := argument.head? = some '-' && argument ≠ ['-']

/-- Reads the arguments after the command.  Asking for help ends the reading. -/
def readOptions (command : Command) (options : Options) : List Text → Except UsageFault Request
  | [] => .ok (.run command options)
  | argument :: rest =>
    match argument with
    | ['-', '-'] => do return .run command (← rest.foldlM Options.setFile options)
    | '-' :: '-' :: body =>
      let (name, given) := match splitFirst '=' body with
        | some (name, value) => (name, some value)
        | none => (body, none)
      if name = "verbose".toList && given.isNone then readOptions command options rest
      else if name = "help".toList && given.isNone then .ok .help
      else match command.option? name, given with
        | none, _ => .error (.unknownOption argument)
        | some .strict, some _ => .error (.unexpectedValue name)
        | some .strict, none =>
          if options.strict then .error (.repeatedOption name)
          else readOptions command { options with strict := true } rest
        | some option, some value =>
          match options.set name value option with
          | .error fault => .error fault
          | .ok options => readOptions command options rest
        | some option, none =>
          match rest with
          | [] => .error (.missingValue name)
          | value :: rest =>
            if isOptionLike value then .error (.missingValue name)
            else match options.set name value option with
              | .error fault => .error fault
              | .ok options => readOptions command options rest
    | '-' :: letter :: letters =>
      match letters? false (letter :: letters) with
      | some .help => .ok .help
      | some _ => readOptions command options rest
      | none => .error (.unknownOption argument)
    | path =>
      match options.setFile path with
      | .error fault => .error fault
      | .ok options => readOptions command options rest

/-- Reads the arguments after the command `help`: they may name one command. -/
def readHelp : List Text → Except UsageFault Request
  | [] => .ok .help
  | name :: rest =>
    if name ≠ "help".toList && (Command.named? name).isNone then .error (.unknownCommand name)
    else match rest with
      | [] => .ok .help
      | other :: _ => .error (.unknownCommand other)

/-- Reads a command line. -/
def read : List Text → Except UsageFault Request
  | [] => .error .noCommand
  | argument :: rest =>
    if argument = "--verbose".toList then read rest
    else if argument = "--version".toList then .ok .version
    else if argument = "--help".toList then .ok .help
    else if argument = "help".toList then readHelp rest
    else match argument with
      | '-' :: '-' :: _ => .error (.unknownOption argument)
      | '-' :: letter :: letters =>
        match letters? true (letter :: letters) with
        | some .verbose => read rest
        | some .version => .ok .version
        | some .help => .ok .help
        | none => .error (.unknownOption argument)
      | name =>
        match Command.named? name with
        | some command => readOptions command {} rest
        | none => .error (.unknownCommand name)

end StoryTemplate.CommandLine
