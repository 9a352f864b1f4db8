import StoryTemplate.Text.Basic

/-! # Faults — why a template has no rendering

    A fault names its cause; the wording is given once, by `Fault.message`.
    Every fault ends the rendering: there is no partial result. -/

namespace StoryTemplate

/-- What is wrong with a line of the code section. -/
inductive LineFault
  /-- The line begins with a character that opens no declaration. -/
  | unknownToken (found : Char)
  /-- An injection is named but given no value. -/
  | missingValue (rest : Text)
  /-- The character after the token is no type of meta object, or is missing. -/
  | unknownMetaType (tag : Option Char)
  /-- A meta object lacks its id or its body. -/
  | missingBody
  /-- An entry of a map is not a key and a value with one colon between them. -/
  | malformedEntry (token : Text)
  deriving DecidableEq, Repr

/-- The stages of a rendering, each of which goes on until nothing is left to
    process. -/
inductive Stage
  | injection
  | conditional
  | anchor
  deriving DecidableEq, Repr

/-- Why a template has no rendering. -/
inductive Fault
  /-- A line of the code section, counted from 1, is no declaration. -/
  | codeLine (line : Nat) (cause : LineFault)
  /-- An injection expression names an injection that is missing or empty. -/
  | nothingInjected (name : Text)
  /-- A ternary asks for a flag that was never set. -/
  | unsetFlag (name : Text)
  /-- A matching asks for a variable that is missing or empty. -/
  | unsetVariable (name : Text)
  /-- An injection leads back to itself. -/
  | injectionCycle (name : Text)
  /-- A stage still found something to process after the allowed passes. -/
  | passLimit (stage : Stage) (passes : UInt64)
  deriving DecidableEq, Repr

/-- The wording of a fault of a line. -/
def LineFault.message : LineFault → String
  | .unknownToken found => "expected '>' or '<', found '" ++ String.singleton found ++ "'"
  | .missingValue rest => "injection '" ++ String.ofList rest ++ "' has no value"
  | .unknownMetaType (some tag) => "unknown meta type '" ++ String.singleton tag ++ "'"
  | .unknownMetaType none => "unknown meta type (missing)"
  | .missingBody => "meta declaration needs an id and a body"
  | .malformedEntry token =>
    "malformed map entry '" ++ String.ofList token ++ "', expected key:value"

/-- The wording of a stage. -/
def Stage.message : Stage → String
  | .injection => "injection"
  | .conditional => "conditional evaluation"
  | .anchor => "anchor extraction"

/-- The wording of a fault. -/
def Fault.message : Fault → String
  | .codeLine line cause => "syntax error on code line " ++ toString line ++ ": " ++ cause.message
  | .nothingInjected name => "nothing injected for '" ++ String.ofList name ++ "'"
  | .unsetFlag name => "boolean variable '" ++ String.ofList name ++ "' is not set"
  | .unsetVariable name => "variable '" ++ String.ofList name ++ "' is not set"
  | .injectionCycle name => "injection '" ++ String.ofList name ++ "' expands to itself"
  | .passLimit stage passes =>
    stage.message ++ " did not settle after " ++ toString passes ++ " passes"

end StoryTemplate
