import StoryTemplate.Anchor.Marking
import StoryTemplate.Conditional.Evaluation
import StoryTemplate.Declaration
import StoryTemplate.Injection.Expansion

/-! # Rendering a template

    A template is divided into data and code, and the code is read.  The data
    then goes through three stages, each until it settles: injections are put
    in, conditional expressions are evaluated, and anchors are taken out.  The
    first fault ends the rendering. -/

namespace StoryTemplate

/-- A template with its code section read. -/
structure Document where
  data : Text
  /-- Names and values in the order of their declarations. -/
  injections : List (Text × Text)
  metaObjects : List MetaObject
  deriving DecidableEq

/-- The outcome of a pass as `settle` takes it. -/
def Pass.toPair (pass : Pass) : Text × Nat := (pass.text, pass.processed)

namespace Document

/-- Divides the template and reads its code section. -/
def read (template : Text) (config : Config) : Except Fault Document :=
  let sections := Sections.split template config.codeDelimiter
  (CodeSection.read sections).map fun code => ⟨sections.data, code.injections, code.metaObjects⟩

/-- Where the injection expressions of the document find their values: its own
    declarations hide the injections of the context. -/
def source (document : Document) (context : Context) : Dict Text :=
  context.injections.insertAll document.injections

/-- Puts the injections into the data. -/
def injected (document : Document) (context : Context) (config : Config) : Except Fault Text :=
  settle .injection config.limit
    (fun s => (inject (document.source context) s).map Pass.toPair) document.data

/-- Evaluates the conditional expressions of a text. -/
def evaluated (context : Context) (config : Config) (s : Text) : Except Fault Text :=
  settle .conditional config.limit
    (fun s => (evaluate context config.variablePolicy s).map Pass.toPair) s

/-- Takes the anchors out of a text. -/
def marked (config : Config) (s : Text) : Except Fault Marking :=
  settle .anchor config.limit (fun marking => .ok marking.mark) (.ofText s)

/-- Renders the document against the context. -/
def render (document : Document) (context : Context) (config : Config) : Except Fault Rendered := do
  let s ← document.injected context config
  let s ← evaluated context config s
  let marking ← marked config s
  return ⟨marking.resolve.1, marking.resolve.2, document.metaObjects⟩

end Document

/-- Renders the template against the context. -/
def render (template : Text) (context : Context) (config : Config) : Except Fault Rendered := do
  (← Document.read template config).render context config

end StoryTemplate
