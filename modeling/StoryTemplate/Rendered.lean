import StoryTemplate.Dict
import StoryTemplate.Text.Integer

/-! # Rendered templates — text and the structured data found beside it

    Parameters and meta values are kept as texts.  They are read as integers or
    flags on demand, and reading never fails: a text that is no integer is
    none, and a text other than `true` (in any case) is false. -/

namespace StoryTemplate

/-! ## Typed reading -/

/-- The integer that the text stands for, white space around it aside. -/
def integerOf (value : Text) : Option Int := readSigned (trim value)

/-- Whether the text says `true`, in upper or lower case. -/
def flagOf (value : Text) : Bool := value.map Char.toLower = ['t', 'r', 'u', 'e']

/-! ## Anchored objects -/

/-- A passage of the rendered text with the parameters attached to it. -/
structure AnchoredObject where
  text : Text
  /-- The number of characters of the rendered text before the passage. -/
  position : Nat
  params : Dict Text
  deriving DecidableEq

namespace AnchoredObject

def param? (object : AnchoredObject) (key : Text) : Option Text := object.params.get? key

def integerParam? (object : AnchoredObject) (key : Text) : Option Int :=
  (object.param? key).bind integerOf

def flagParam (object : AnchoredObject) (key : Text) : Bool := (object.param? key).any flagOf

end AnchoredObject

/-! ## Meta objects -/

/-- A declared table of keys and values. -/
structure MetaMap where
  id : Text
  data : Dict Text
  deriving DecidableEq

namespace MetaMap

def get? (map : MetaMap) (key : Text) : Option Text := map.data.get? key

def integer? (map : MetaMap) (key : Text) : Option Int := (map.get? key).bind integerOf

def flag (map : MetaMap) (key : Text) : Bool := (map.get? key).any flagOf

end MetaMap

/-- A declared row of values. -/
structure MetaList where
  id : Text
  data : List Text
  deriving DecidableEq

namespace MetaList

def get? (list : MetaList) (index : Nat) : Option Text := list.data[index]?

def integer? (list : MetaList) (index : Nat) : Option Int := (list.get? index).bind integerOf

def flag (list : MetaList) (index : Nat) : Bool := (list.get? index).any flagOf

end MetaList

/-- Structured data declared in the code section. -/
inductive MetaObject
  | map (value : MetaMap)
  | list (value : MetaList)
  deriving DecidableEq

namespace MetaObject

def id : MetaObject → Text
  | .map value => value.id
  | .list value => value.id

def asMap? : MetaObject → Option MetaMap
  | .map value => some value
  | .list _ => none

def asList? : MetaObject → Option MetaList
  | .map _ => none
  | .list value => some value

end MetaObject

/-! ## The rendering -/

/-- A rendered template. -/
structure Rendered where
  text : Text
  /-- In the order in which the passages begin, an outer one before those in it. -/
  anchoredObjects : List AnchoredObject
  /-- In the order of their declarations. -/
  metaObjects : List MetaObject
  deriving DecidableEq

/-- The first meta object with the id. -/
def Rendered.metaObject? (rendered : Rendered) (id : Text) : Option MetaObject :=
  rendered.metaObjects.find? fun object => object.id = id

end StoryTemplate
