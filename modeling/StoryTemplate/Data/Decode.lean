import StoryTemplate.Data.Json
import StoryTemplate.Dict
import StoryTemplate.Text.Integer

/-! # Decoding — typed values from structured data

    A notation says by its `Dialect` which scalars stand for texts, flags and
    numbers.  On top of that, data is read as tables, whose keys are free, and
    as records, whose fields have fixed names.

    A key that a table repeats counts the last time; a record repeats no field. -/

namespace StoryTemplate

/-- What stands for typed values in a notation. -/
structure Dialect (σ : Type) where
  /-- The content of a scalar where a text is wanted. -/
  text? : σ → Option Text
  flag? : σ → Option Bool
  /-- The number of 64 bits without a sign. -/
  word? : σ → Option UInt64
  /-- Whether the scalar stands for a missing value. -/
  isNull : σ → Bool
  /-- Whether the scalar stands for a table or record with nothing in it. -/
  isEmptyTable : σ → Bool
  /-- Whether a sequence stands for the first fields of a record in their order. -/
  sequenceIsRecord : Bool
  /-- Whether a mapping of a name to a missing value stands for the name of a choice. -/
  mappingIsChoice : Bool

namespace Dialect

variable {σ α : Type}

/-- The scalar that is the node. -/
def scalar? : Node σ → Option σ
  | .scalar value => some value
  | _ => none

/-- Reads a text. -/
def text (dialect : Dialect σ) (node : Node σ) : Option Text :=
  (scalar? node).bind dialect.text?

/-- Reads a flag. -/
def flag (dialect : Dialect σ) (node : Node σ) : Option Bool :=
  (scalar? node).bind dialect.flag?

/-- Reads a number of 64 bits without a sign. -/
def word (dialect : Dialect σ) (node : Node σ) : Option UInt64 :=
  (scalar? node).bind dialect.word?

/-- Reads the name of a choice. -/
def choice (dialect : Dialect σ) : Node σ → Option Text
  | .scalar value => dialect.text? value
  | .mapping [(name, .scalar value)] =>
    if dialect.mappingIsChoice && dialect.isNull value then dialect.text? name else none
  | _ => none

/-- Reads a value that may be missing. -/
def optional (dialect : Dialect σ) (read : Node σ → Option α) (node : Node σ) :
    Option (Option α) :=
  match node with
  | .scalar value => if dialect.isNull value then some none else (read node).map some
  | _ => (read node).map some

/-- The entries of a mapping with the texts of their keys. -/
def entries (dialect : Dialect σ) (pairs : List (σ × Node σ)) : Option (List (Text × Node σ)) :=
  pairs.mapM fun (key, value) => (dialect.text? key).map fun key => (key, value)

/-- Reads a table of values. -/
def table (dialect : Dialect σ) (read : Node σ → Option α) : Node σ → Option (Dict α)
  | .scalar value => if dialect.isEmptyTable value then some ∅ else none
  | .sequence _ => none
  | .mapping pairs => do
    let entries ← dialect.entries pairs
    let values ← entries.mapM fun (key, node) => (read node).map fun value => (key, value)
    return Dict.ofList values

/-- Reads the fields of a record.  Other fields than the named ones are passed
    over if `othersAllowed` says so, and else refused. -/
def record (dialect : Dialect σ) (names : List Text) (othersAllowed : Bool) :
    Node σ → Option (List (Text × Node σ))
  | .scalar value => if dialect.isEmptyTable value then some [] else none
  | .sequence items =>
    if dialect.sequenceIsRecord && items.length ≤ names.length then some (names.zip items) else none
  | .mapping pairs => do
    let entries ← dialect.entries pairs
    -- Only a named field may not be repeated.
    let fields := entries.filter fun entry => names.contains entry.1
    if (othersAllowed || fields.length = entries.length) && decide (fields.map Prod.fst).Nodup then
      some fields
    else none

/-- Reads the named field, or takes the value for a missing one. -/
def field (fields : List (Text × Node σ)) (name : Text) (missing : α) (read : Node σ → Option α) :
    Option α :=
  match fields.lookup name with
  | none => some missing
  | some node => read node

end Dialect

/-- Typed values in JSON notation: each kind has scalars of its own, a sequence
    may stand for a record, and only `null` stands for a missing value. -/
def Json.dialect : Dialect Json.Scalar where
  text?
    | .text content => content
    | _ => none
  flag?
    | .flag value => some value
    | _ => none
  word?
    | .number digits => (readNatural digits).bind StoryTemplate.word?
    | _ => none
  isNull
    | .null => true
    | _ => false
  isEmptyTable _ := false
  sequenceIsRecord := true
  mappingIsChoice := true

end StoryTemplate
