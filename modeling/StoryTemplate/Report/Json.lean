import StoryTemplate.Report.Basic
import StoryTemplate.Text.Integer
import StoryTemplate.Text.Split

/-! # Reports in JSON notation

    Every item and field stands on a line of its own, two columns further in than
    what holds it; an empty list or record stays on its line. -/

namespace StoryTemplate.Report

/-! ## Strings -/

/-- A hexadecimal digit in lower case. -/
def hexDigit (n : Nat) : Char := Char.ofNat (if n < 10 then 48 + n else 87 + n)

/-- A character as it stands in a JSON string: quotes, backslashes and control
    characters are escaped. -/
def escapeChar (c : Char) : Text :=
  if c = '"' then ['\\', '"']
  else if c = '\\' then ['\\', '\\']
  else if c = '\x08' then ['\\', 'b']
  else if c = '\x0c' then ['\\', 'f']
  else if c = '\n' then ['\\', 'n']
  else if c = '\r' then ['\\', 'r']
  else if c = '\t' then ['\\', 't']
  else if c.toNat < 0x20 then
    ['\\', 'u', '0', '0', hexDigit (c.toNat / 16), hexDigit (c.toNat % 16)]
  else [c]

/-- A text as it stands between the quotes of a JSON string. -/
def escape (s : Text) : Text := s.flatMap escapeChar

/-- A text as a JSON string. -/
def quote (s : Text) : Text := '"' :: escape s ++ ['"']

/-! ## Reports -/

mutual

/-- The report, of which the first line begins where the text before it ends and
    the last one closes at the column. -/
def jsonAt (column : Nat) : Report → Text
  | .text content => quote content
  | .number value => decimal value
  | .list [] => ['[', ']']
  | .list (item :: items) =>
    '[' :: '\n' :: joinWith [',', '\n'] (jsonItems (column + 2) (item :: items)) ++
      '\n' :: spaces column ++ [']']
  | .record [] => ['\x7b', '\x7d']
  | .record (field :: fields) =>
    '\x7b' :: '\n' :: joinWith [',', '\n'] (jsonFields (column + 2) (field :: fields)) ++
      '\n' :: spaces column ++ ['\x7d']

/-- The items, each as it stands at the column. -/
def jsonItems (column : Nat) : List Report → List Text
  | [] => []
  | item :: items => (spaces column ++ jsonAt column item) :: jsonItems column items

/-- The fields, each as it stands at the column. -/
def jsonFields (column : Nat) : List (Text × Report) → List Text
  | [] => []
  | (name, value) :: fields =>
    (spaces column ++ quote name ++ ':' :: ' ' :: jsonAt column value) :: jsonFields column fields

end

/-- The report in JSON notation. -/
def json (report : Report) : Text := report.jsonAt 0

end StoryTemplate.Report
