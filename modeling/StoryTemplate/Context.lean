import StoryTemplate.Dict

/-! # Contexts — the state that a rendering reads

    A variable is a flag or a text.  Flags, texts and injections are three
    separate dictionaries, so one name may stand in all three.  In each of them
    the last write to a name counts. -/

namespace StoryTemplate

/-- A value for a variable: it decides which dictionary the variable goes to. -/
inductive Variable
  | flag (value : Bool)
  | text (value : Text)
  deriving DecidableEq, Repr

/-- The state that a rendering reads. -/
structure Context where
  /-- Read by ternaries. -/
  flags : Dict Bool := ∅
  /-- Read by matchings. -/
  texts : Dict Text := ∅
  /-- Read by injection expressions. -/
  injections : Dict Text := ∅
  deriving DecidableEq, Inhabited

namespace Context

/-- Sets a flag or a text, as the value tells. -/
def setVariable (context : Context) (name : Text) : Variable → Context
  | .flag value => { context with flags := context.flags.insert name value }
  | .text value => { context with texts := context.texts.insert name value }

/-- Sets an injection. -/
def inject (context : Context) (name value : Text) : Context :=
  { context with injections := context.injections.insert name value }

/-- Sets every pair as an injection, in order. -/
def extendInjections (context : Context) (pairs : List (Text × Text)) : Context :=
  { context with injections := context.injections.insertAll pairs }

/-- The context with nothing set. -/
def clear (_ : Context) : Context := {}

/-- Whether nothing is set. -/
def isEmpty (context : Context) : Bool :=
  context.flags.isEmpty && context.texts.isEmpty && context.injections.isEmpty

/-- The value of the text variable, if there is one with at least one character. -/
def filledText? (context : Context) (name : Text) : Option Text :=
  (context.texts.get? name).filter (· ≠ [])

end Context
end StoryTemplate
