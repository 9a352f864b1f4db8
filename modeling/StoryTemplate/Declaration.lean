import StoryTemplate.Fault
import StoryTemplate.Rendered
import StoryTemplate.Section

/-! # Declarations — the lines of a code section

    A line of code declares an injection (`> name value`) or a meta object
    (`< m id key:value|key:value` for a map, `< l id value|value` for a list).
    Blank lines declare nothing; the first line that is neither ends the
    reading. -/

namespace StoryTemplate

/-- What a line of code declares. -/
inductive Declaration
  | injection (name value : Text)
  | metaObject (object : MetaObject)
  deriving DecidableEq

namespace Declaration

/-- Reads the name and the value of an injection, which the first space divides. -/
def readInjection (rest : Text) : Except LineFault Declaration :=
  match splitFirst ' ' rest with
  | some (name, value) => .ok (.injection name value)
  | none => .error (.missingValue rest)

/-- Divides the text after the type of a meta object into the id and the body. -/
def readId (body : Text) : Except LineFault (Text × Text) :=
  match splitFirst ' ' body with
  | some (id, data) => if id = [] ∨ data = [] then .error .missingBody else .ok (id, data)
  | none => .error .missingBody

/-- The tokens of a body between the bars, without the empty ones at its end. -/
def tokens (data : Text) : List Text :=
  ((splitAll '|' data).reverse.dropWhile (· = [])).reverse

/-- Reads an entry of a map: a key and a value with one colon between them. -/
def readEntry (token : Text) : Except LineFault (Text × Text) :=
  match splitAll ':' token with
  | [key, value] => if key = [] ∨ value = [] then .error (.malformedEntry token) else .ok (key, value)
  | _ => .error (.malformedEntry token)

/-- Reads a meta object after its opening token. -/
def readMetaObject (rest : Text) : Except LineFault MetaObject :=
  match rest with
  | 'm' :: body => do
    let (id, data) ← readId (trim body)
    let entries ← (tokens data).mapM readEntry
    return .map ⟨id, Dict.ofList entries⟩
  | 'l' :: body => do
    let (id, data) ← readId (trim body)
    return .list ⟨id, tokens data⟩
  | other :: _ => .error (.unknownMetaType (some other))
  | [] => .error (.unknownMetaType none)

/-- Reads a line of code. -/
def read (line : Text) : Except LineFault (Option Declaration) :=
  if isBlankText line then .ok none
  -- The token is the very first character: white space before it is not skipped.
  else match line with
    | '>' :: rest => (readInjection (trim rest)).map some
    | '<' :: rest => (readMetaObject (trim rest)).map fun object => some (.metaObject object)
    | other :: _ => .error (.unknownToken other)
    | [] => .ok none

/-- Reads numbered lines in order, up to the first that is no declaration. -/
def readLines : List (Nat × Text) → Except Fault (List Declaration)
  | [] => .ok []
  | (number, line) :: rest =>
    match read line with
    | .error cause => .error (.codeLine number cause)
    | .ok none => readLines rest
    | .ok (some declaration) => (readLines rest).map (declaration :: ·)

/-- The name and the value that the declaration injects. -/
def injection? : Declaration → Option (Text × Text)
  | .injection name value => some (name, value)
  | .metaObject _ => none

/-- The meta object that the declaration describes. -/
def metaObject? : Declaration → Option MetaObject
  | .injection _ _ => none
  | .metaObject object => some object

end Declaration

/-- All that a code section declares, each kind in the order of its lines. -/
structure CodeSection where
  injections : List (Text × Text)
  metaObjects : List MetaObject
  deriving DecidableEq

/-- Reads the code section of a divided template. -/
def CodeSection.read (sections : Sections) : Except Fault CodeSection :=
  (Declaration.readLines sections.codeLines).map fun declarations =>
    ⟨declarations.filterMap Declaration.injection?, declarations.filterMap Declaration.metaObject?⟩

end StoryTemplate
