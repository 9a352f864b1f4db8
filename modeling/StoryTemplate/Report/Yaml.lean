import StoryTemplate.Data.Yaml.Spelling
import StoryTemplate.Report.Basic

/-! # Reports in YAML notation

    A report is written in block style as rows.  Fields are two columns further
    in than what holds them, and the items of a list are marked by a dash in the
    column of its field.

    A text is written plain if that reads back as the text.  It stands in single
    quotes if it would read as something else, as a literal block if it has
    several lines, and in double quotes if it holds what only an escape can
    show.  A key that is long or has several lines stands on its own after a
    question mark.

    A row ends with a line feed, or with a line or paragraph separator of the
    text in it. -/

namespace StoryTemplate.Report

/-! ## Rows -/

/-- The rows of a text: each but the last has ended, with a line feed, which is
    left out, or with a separator. -/
def textRows : Text → List Text
  | [] => [[]]
  | c :: rest =>
    if c = '\n' then [] :: textRows rest
    else if Yaml.isSeparator c then [c] :: textRows rest
    else match textRows rest with
      | [] => [[c]]
      | row :: rows => (c :: row) :: rows

/-- A row with its end. -/
def endRow (row : Text) : Text :=
  if row.getLast?.any Yaml.isSeparator then row else row ++ ['\n']

/-- A row moved to the right; a row without characters is not moved. -/
def indentRow (row : Text) : Text :=
  if row = [] || row.head?.any Yaml.isSeparator then row else ' ' :: ' ' :: row

/-! ## The kinds of scalars -/

/-- Whether the character can stand unescaped. -/
def isPrintable (c : Char) : Bool :=
  let n := c.toNat
  n == 0x0A || (0x20 ≤ n && n ≤ 0x7E) || (0xA0 ≤ n && n ≤ 0xFFFD && n != 0xFEFF) || 0x10000 ≤ n

/-- Whether a colon or a comment within the text would end a plain scalar. -/
def endsPlain (afterGap : Bool) : Text → Bool
  | [] => false
  | c :: rest =>
    (c == ':' && Yaml.endsHere rest) || (c == '#' && afterGap) ||
      endsPlain (Yaml.isGap c || Yaml.isBreak c) rest

/-- Whether the text begins with what no plain scalar begins with. -/
def beginsMarked : Text → Bool
  | [] => true
  | '-' :: '-' :: '-' :: _ => true
  | '.' :: '.' :: '.' :: _ => true
  | c :: rest =>
    if c == '-' || c == '?' || c == ':' then Yaml.endsHere rest else Yaml.isIndicator c

/-- Whether a space stands next to a line break, before or after it. -/
def hasSpaceAt (before after : Bool) : Text → Bool
  | a :: b :: rest =>
    (before && a == ' ' && Yaml.isBreak b) || (after && Yaml.isBreak a && b == ' ') ||
      hasSpaceAt before after (b :: rest)
  | _ => false

/-- Whether the text can be written plain. -/
def canBePlain (s : Text) : Bool :=
  s.all isPrintable && !s.any Yaml.isBreak && s.head? != some ' ' && s.getLast? != some ' ' &&
    !beginsMarked s && !endsPlain true s

/-- Whether the text can be written in single quotes. -/
def canBeSingle (s : Text) : Bool := s.all isPrintable && !hasSpaceAt true true s

/-- Whether the text can be written as a literal block. -/
def canBeLiteral (s : Text) : Bool :=
  s.all isPrintable && s.getLast? != some ' ' && !hasSpaceAt true false s

/-! ## Writing scalars -/

/-- A text in single quotes. -/
def singleQuoted (s : Text) : Text :=
  '\x27' :: s.flatMap (fun c => if c = '\x27' then ['\x27', '\x27'] else [c]) ++ ['\x27']

/-- The hexadecimal digits of a number in upper case, filled up with zeros. -/
def upperHex (width n : Nat) : Text :=
  let digits := (Nat.toDigits 16 n).map Char.toUpper
  List.replicate (width - digits.length) '0' ++ digits

/-- A character as it stands in double quotes. -/
def escapeYamlChar (c : Char) : Text :=
  if isPrintable c && !Yaml.isBreak c && c != '"' && c != '\\' then [c]
  else
    let letter := match c.toNat with
      | 0x00 => some '0'
      | 0x07 => some 'a'
      | 0x08 => some 'b'
      | 0x09 => some 't'
      | 0x0A => some 'n'
      | 0x0B => some 'v'
      | 0x0C => some 'f'
      | 0x0D => some 'r'
      | 0x1B => some 'e'
      | 0x22 => some '"'
      | 0x5C => some '\\'
      | 0x85 => some 'N'
      | 0x2028 => some 'L'
      | 0x2029 => some 'P'
      | _ => none
    match letter with
    | some letter => ['\\', letter]
    | none =>
      if c.toNat ≤ 0xFF then '\\' :: 'x' :: upperHex 2 c.toNat
      else if c.toNat ≤ 0xFFFF then '\\' :: 'u' :: upperHex 4 c.toNat
      else '\\' :: 'U' :: upperHex 8 c.toNat

/-- A text in double quotes. -/
def doubleQuoted (s : Text) : Text := '"' :: s.flatMap escapeYamlChar ++ ['"']

/-- The sign after the bar of a literal block: how the block ends, and before
    that, if the block begins with white space, how far it is indented. -/
def blockSign (s : Text) : Text :=
  -- The reader would take white space at the beginning for indentation.
  let begins := match s with
    | c :: _ => if c == ' ' || Yaml.isBreak c then ['2'] else []
    | [] => []
  -- A block ends with one line break unless its sign says otherwise.
  let ends := match s.reverse with
    | [] => ['-']
    | c :: rest =>
      if !Yaml.isBreak c then ['-']
      else if rest.head?.all Yaml.isBreak then ['+']
      else []
  begins ++ ends

/-- The rows of a text as a literal block. -/
def literalRows (s : Text) : List Text :=
  let rows := textRows s
  let rows := if s.getLast?.any Yaml.isBreak then rows.dropLast else rows
  ('|' :: blockSign s) :: rows.map indentRow

/-- A text without line feeds, plain if possible. -/
def inlineText (s : Text) : Text :=
  if canBePlain s && Yaml.readsAsText s then s
  else if canBeSingle s then singleQuoted s
  else doubleQuoted s

/-- The rows of a text; the first one follows its key or its dash. -/
def scalarRows (s : Text) : List Text :=
  if s.contains '\n' then
    if canBeLiteral s then literalRows s else [doubleQuoted s]
  else match textRows (inlineText s) with
    | [] => []
    | row :: rows => row :: rows.map indentRow

/-- Whether the text can be a key that its colon follows on the same row: it has
    one line and no more than 128 bytes. -/
def isSimpleKey (s : Text) : Bool :=
  !s.any Yaml.isBreak && (String.ofList s).utf8ByteSize ≤ 128

/-! ## Reports -/

/-- Puts something in front of the first row. -/
def follow (start : Text) : List Text → List Text
  | [] => [start]
  | row :: rows => (start ++ row) :: rows

/-- Puts something two columns wide in front of the first row and moves the
    others to the right as far. -/
def hang (start : Text) : List Text → List Text
  | [] => [start]
  | row :: rows => (start ++ row) :: rows.map indentRow

mutual

/-- The rows of the report. -/
def yamlRows : Report → List Text
  | .text content => scalarRows content
  | .number value => [decimal value]
  | .list [] => [['[', ']']]
  | .list (item :: items) => yamlItems (item :: items)
  | .record [] => [['\x7b', '\x7d']]
  | .record (field :: fields) => yamlFields (field :: fields)

/-- The rows of the items of a list.  The rows of a text are indented already
    with respect to what holds it. -/
def yamlItems : List Report → List Text
  | [] => []
  | .text content :: items => follow ['-', ' '] (scalarRows content) ++ yamlItems items
  | item :: items => hang ['-', ' '] (yamlRows item) ++ yamlItems items

/-- The rows of the fields of a record. -/
def yamlFields : List (Text × Report) → List Text
  | [] => []
  | (name, value) :: fields =>
    (if isSimpleKey name then
      match value with
      | .record (_ :: _) => (inlineText name ++ [':']) :: (yamlRows value).map indentRow
      | .list (_ :: _) => (inlineText name ++ [':']) :: yamlRows value
      | _ => follow (inlineText name ++ [':', ' ']) (yamlRows value)
    else follow ['?', ' '] (scalarRows name) ++
      match value with
      | .text content => follow [':', ' '] (scalarRows content)
      | _ => hang [':', ' '] (yamlRows value)) ++ yamlFields fields

end

/-- The report in YAML notation. -/
def yaml (report : Report) : Text := (yamlRows report).flatMap endRow

end StoryTemplate.Report
