import StoryTemplate.CommandLine.Run
import StoryTemplate.Data.Yaml
import StoryTemplate.Data.Yaml.Spelling
import StoryTemplate.Report.Json
import StoryTemplate.Report.Yaml

/-! # Notations that a program can be run with

    What is said of runs is said of all readers and writers of the two notations.
    These are the ones that the program itself is given.  Their YAML is a part of the
    notation: block and flow collections of plain and quoted scalars, without block
    scalars, anchors, tags and directives.

    Unknown fields of a variables file are refused at the top and passed over in the
    configuration. -/

namespace StoryTemplate

variable {σ : Type}

/-- The policy with the name. -/
def VariablePolicy.named? (name : Text) : Option VariablePolicy :=
  if name = "lenient".toList then some .lenient
  else if name = "strict".toList then some .strict
  else none

/-- Reads a configuration; a missing field has its default. -/
def Config.decode (dialect : Dialect σ) (node : Node σ) : Option Config := do
  let names := ["variable_policy", "max_passes", "code_delimiter", "header_delimiter"]
  let fields ← dialect.record (names.map String.toList) true node
  let default : Config := {}
  let policy ← Dialect.field fields "variable_policy".toList default.variablePolicy
    fun node => (dialect.choice node).bind VariablePolicy.named?
  let passes ← Dialect.field fields "max_passes".toList default.maxPasses dialect.word
  let code ← Dialect.field fields "code_delimiter".toList default.codeDelimiter dialect.text
  let header ← Dialect.field fields "header_delimiter".toList default.headerDelimiter dialect.text
  return ⟨policy, passes, code, header⟩

/-- Reads the content of a variables file. -/
def VariablesFile.decode (dialect : Dialect σ) (node : Node σ) : Option VariablesFile := do
  let names := ["flags", "variables", "injections", "config"]
  let fields ← dialect.record (names.map String.toList) false node
  let flags ← Dialect.field fields "flags".toList ∅ (dialect.table dialect.flag)
  let texts ← Dialect.field fields "variables".toList ∅ (dialect.table dialect.text)
  let injections ← Dialect.field fields "injections".toList ∅ (dialect.table dialect.text)
  let config ← Dialect.field fields "config".toList none
    (dialect.optional (Config.decode dialect))
  return ⟨flags, texts, injections, config⟩

/-- The notations of the program. -/
def CommandLine.Notations.standard : CommandLine.Notations where
  readJson content := (Json.read content).bind (VariablesFile.decode Json.dialect)
  readYaml content :=
    (Yaml.read content).bind (Yaml.dialect.optional (VariablesFile.decode Yaml.dialect))
  writeJson := Report.json
  writeYaml := Report.yaml

end StoryTemplate
