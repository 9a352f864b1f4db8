import StoryTemplate.Dict
import StoryTemplate.Section

/-! # Headers — the lines after the header delimiter

    A header line is a key and a value.  Spaces divide it into parts: the first
    part is the key, the others with single spaces between them are the value.
    Headers play no part in a rendering. -/

namespace StoryTemplate

/-- The entry of a header line; a line with fewer than two parts has none. -/
def headerEntry? (line : Text) : Option (Text × Text) :=
  match (splitAll ' ' line).filter (· ≠ []) with
  | key :: first :: others => some (key, joinWith [' '] (first :: others))
  | _ => none

/-- The entries after the first line that holds just the delimiter; the last
    entry of a key counts. -/
def extractHeaders (template delimiter : Text) : Dict Text :=
  let lineBreak := LineBreak.detect template
  match lineBreak.findDelimiter delimiter template with
  | none => ∅
  | some (_, rest) => Dict.ofList ((lineBreak.lines rest).filterMap headerEntry?)

end StoryTemplate
