import StoryTemplate.Engine
import StoryTemplate.Text.Split

/-! # Variables files — a context and a configuration kept in a file

    A variables file is a record of four optional fields: the tables `flags`,
    `variables` (of texts) and `injections`, and the record `config`.

    A file is in JSON notation if its name ends so, and else in YAML notation. -/

namespace StoryTemplate

/-- The content of a variables file. -/
structure VariablesFile where
  flags : Dict Bool := ∅
  texts : Dict Text := ∅
  injections : Dict Text := ∅
  config : Option Config := none
  deriving DecidableEq, Inhabited

namespace VariablesFile

/-- The last component of a path. -/
def fileName? (path : Text) : Option Text :=
  ((splitAll '/' path).filter fun part => part ≠ [] && part ≠ ['.']).getLast?

/-- Whether the file is in JSON notation: its name ends in `.json`, in upper or
    lower case, with something before the dot. -/
def isJsonPath (path : Text) : Bool :=
  match (fileName? path).bind fun name => splitFirst '.' name.reverse with
  | some (ending, stem) => stem ≠ [] && ending.reverse.map Char.toLower = "json".toList
  | none => false

/-- Sets all that the file holds, its configuration aside. -/
def apply (file : VariablesFile) (engine : Engine) : Engine :=
  let engine := file.flags.entries.foldl
    (fun engine (name, value) => engine.setVariable name (.flag value)) engine
  let engine := file.texts.entries.foldl
    (fun engine (name, value) => engine.setVariable name (.text value)) engine
  file.injections.entries.foldl (fun engine (name, value) => engine.inject name value) engine

end VariablesFile
end StoryTemplate
