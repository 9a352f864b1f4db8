import StoryTemplate.Data.Node

/-! # YAML — scalars and characters

    This is the part of YAML that settings are written in: block and flow
    collections, comments, and scalars that are plain or stand in either kind of
    quotes.  Properties of nodes, aliases, directives and block scalars are
    refused.

    This module holds the scalars and the classes of characters that both the
    reading and the writing of YAML go by. -/

namespace StoryTemplate.Yaml

/-- A YAML scalar.  Only a plain one may stand for something else than a text. -/
structure Scalar where
  isPlain : Bool
  content : Text
  deriving DecidableEq, Repr, Inhabited

/-- The scalar of a value that is not written. -/
def Scalar.missing : Scalar := ⟨true, []⟩

/-- Data in YAML notation. -/
abbrev Value := Node Scalar

/-! ## Characters -/

/-- The characters that a YAML text may hold. -/
def isAllowed (c : Char) : Bool :=
  let n := c.toNat
  n == 0x09 || n == 0x0A || n == 0x0D || (0x20 ≤ n && n ≤ 0x7E) || n == 0x85 ||
    (0xA0 ≤ n && n ≤ 0xFFFD) || 0x10000 ≤ n

/-- The separators of lines and paragraphs, the line breaks that are kept as
    they are. -/
def isSeparator (c : Char) : Bool := c == '\u2028' || c == '\u2029'

/-- A line break. -/
def isBreak (c : Char) : Bool := c == '\n' || c == '\r' || c == '\u0085' || isSeparator c

/-- Whether a line ends with the character: a carriage return before a line feed
    leaves that to the line feed. -/
def endsLine (c : Char) (rest : Text) : Bool :=
  isBreak c && !(c == '\r' && rest.head? == some '\n')

/-- A space or a tab. -/
def isGap (c : Char) : Bool := c == ' ' || c == '\t'

/-- Whether the text is over or goes on with white space. -/
def endsHere : Text → Bool
  | [] => true
  | c :: _ => isGap c || isBreak c

/-- The characters that a flow collection is made with. -/
def isFlowMark (c : Char) : Bool := ",[]\x7b\x7d".toList.contains c

/-- The characters that mean something at the beginning of a node. -/
def isIndicator (c : Char) : Bool :=
  "-?:,[]\x7b\x7d#&*!|>%@\x27\"".toList.contains c || c.toNat == 0x60

/-- Whether the character stands three times at the beginning of the text and
    white space follows. -/
def beginsWithThree (mark : Char) : Text → Bool
  | a :: b :: c :: rest => a == mark && b == mark && c == mark && endsHere rest
  | _ => false

/-- Whether a marker for the start or the end of a document stands at the
    beginning of the text. -/
def beginsWithMarker (s : Text) : Bool := beginsWithThree '-' s || beginsWithThree '.' s

end StoryTemplate.Yaml
