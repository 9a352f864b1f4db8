import StoryTemplate.Header
import StoryTemplate.Render

/-! # Engines — renderings that share a context

    An engine keeps a context from one rendering to the next.  The injections
    that a template declares are kept as soon as its code section is read, also
    if the rendering then fails. -/

namespace StoryTemplate

/-- A context and the configuration of all renderings against it. -/
structure Engine where
  context : Context := {}
  config : Config := {}
  deriving DecidableEq, Inhabited

namespace Engine

/-- Renders the template and keeps the injections it declares. -/
def process (engine : Engine) (template : Text) : Except Fault Rendered × Engine :=
  match Document.read template engine.config with
  | .error fault => (.error fault, engine)
  | .ok document =>
    let context := engine.context.extendInjections document.injections
    (document.render context engine.config, { engine with context := context })

/-- Unsets everything; the configuration stays. -/
def reset (engine : Engine) : Engine := { engine with context := engine.context.clear }

/-- Sets a flag or a text, as the value tells. -/
def setVariable (engine : Engine) (name : Text) (value : Variable) : Engine :=
  { engine with context := engine.context.setVariable name value }

/-- Sets an injection. -/
def inject (engine : Engine) (name value : Text) : Engine :=
  { engine with context := engine.context.inject name value }

/-- The headers of the template. -/
def headers (engine : Engine) (template : Text) : Dict Text :=
  extractHeaders template engine.config.headerDelimiter

end Engine
end StoryTemplate
