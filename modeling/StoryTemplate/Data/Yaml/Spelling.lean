import StoryTemplate.Data.Decode
import StoryTemplate.Data.Yaml.Basic

/-! # What plain YAML scalars stand for

    A plain scalar is a missing value, a flag or a number if it is spelled like
    one, and a text otherwise.  Integers have up to 128 bits.  A decimal number
    has to lie in the range of 64-bit floating point: one that would be rounded
    to infinity is a text.

    A reader asks for one kind of value, by the `dialect`; a writer asks by
    `readsAsText` whether a text may stand plain. -/

namespace StoryTemplate.Yaml

/-! ## Integers -/

/-- The value of a row of digits to a base up to sixteen. -/
def readRadix? (base : Nat) (digits : Text) : Option Nat :=
  if digits = [] then none
  else digits.foldlM (fun value c =>
    ((Json.hexDigit? c).filter (· < base)).map (value * base + ·)) 0

/-- Reads a natural number without a sign: decimal without leading zeros, or
    after `0x`, `0o` or `0b` to the base sixteen, eight or two. -/
def readUnsigned? : Text → Option Nat
  | '0' :: 'x' :: rest => readRadix? 16 rest
  | '0' :: 'o' :: rest => readRadix? 8 rest
  | '0' :: 'b' :: rest => readRadix? 2 rest
  | '0' :: _ :: _ => none
  | digits => readRadix? 10 digits

/-- Reads a natural number, before which a plus sign may stand. -/
def readNumber? : Text → Option Nat
  | '+' :: rest => readUnsigned? rest
  | s => readUnsigned? s

/-- Whether the text is an integer that fits in 128 bits: without a sign bit if it
    is not negative, and with one if it is. -/
def isInteger : Text → Bool
  | '-' :: rest => (readUnsigned? rest).any (· ≤ 170141183460469231731687303715884105728)
  | s => (readNumber? s).any (· ≤ 340282366920938463463374607431768211455)

/-! ## Decimal numbers -/

/-- The text without its sign. -/
def dropSign : Text → Text
  | '+' :: rest => rest
  | '-' :: rest => rest
  | s => s

/-- Reads the exponent of a decimal number, which may be missing. -/
def readExponent? : Text → Option Int
  | [] => some 0
  | e :: rest =>
    if e = 'e' ∨ e = 'E' then
      match rest with
      | '-' :: digits => (readNatural digits).map fun n => -(n : Int)
      | '+' :: digits => (readNatural digits).map fun n => (n : Int)
      | digits => (readNatural digits).map fun n => (n : Int)
    else none

/-- Reads a decimal number without a sign, with a fraction and an exponent if it
    likes.  The number is the first part of the outcome times ten to the power of
    the second. -/
def readDecimal? (s : Text) : Option (Nat × Int) :=
  let whole := s.takeWhile Char.isDigit
  let (fraction, rest) := match s.dropWhile Char.isDigit with
    | '.' :: rest => (rest.takeWhile Char.isDigit, rest.dropWhile Char.isDigit)
    | rest => ([], rest)
  if whole = [] ∧ fraction = [] then none
  else (readExponent? rest).map fun exponent =>
    (digitsValue (whole ++ fraction), exponent - fraction.length)

/-- The least number that is rounded to infinity in 64-bit floating point: half a
    step above the largest finite one. -/
def infinityBound : Nat := (Nat.pow 2 54 - 1) * Nat.pow 2 970

/-- Whether the number times the power of ten stays below `infinityBound`. -/
def isFinite (number : Nat) (exponent : Int) : Bool :=
  -- The bound has 309 digits, so only for a number of as many they are compared.
  let digits := (decimal number).length + exponent
  if number = 0 || digits < 309 then true
  else if digits > 309 then false
  else if 0 ≤ exponent then number * Nat.pow 10 exponent.toNat < infinityBound
  else number < infinityBound * Nat.pow 10 (-exponent).toNat

/-- Whether the text is a decimal number in the range of 64-bit floating point. -/
def isDecimal (s : Text) : Bool :=
  (readDecimal? (dropSign s)).any fun (number, exponent) => isFinite number exponent

/-- The spellings of infinity and of what is no number. -/
def specialNumbers : List Text :=
  [".inf", ".Inf", ".INF", "-.inf", "-.Inf", "-.INF", "+.inf", "+.Inf", "+.INF",
   ".nan", ".NaN", ".NAN"].map String.toList

/-- Whether the text is a row of several digits with a zero in front, which is no
    number. -/
def hasLeadingZero (s : Text) : Bool :=
  match dropSign s with
  | '0' :: c :: rest => (c :: rest).all Char.isDigit
  | _ => false

/-! ## Missing values and flags -/

/-- The spellings of a missing value. -/
def nullSpellings : List Text := ["", "~", "null", "Null", "NULL"].map String.toList

/-- The flag that is spelled so. -/
def readFlag? (s : Text) : Option Bool :=
  if (["true", "True", "TRUE"].map String.toList).contains s then some true
  else if (["false", "False", "FALSE"].map String.toList).contains s then some false
  else none

/-- Whether a plain scalar with this content is taken for a text without doubt;
    digits after a zero are doubtful, since some readers see a number in them. -/
def readsAsText (s : Text) : Bool :=
  !(nullSpellings.contains s || (readFlag? s).isSome || isInteger s || isDecimal s ||
    specialNumbers.contains s || hasLeadingZero s)

/-- Typed values in YAML notation: any scalar is a text, and a plain one may be
    a flag, a number or a missing value by its spelling. -/
def dialect : Dialect Scalar where
  text? scalar := some scalar.content
  flag? scalar := if scalar.isPlain then readFlag? scalar.content else none
  word? scalar :=
    if scalar.isPlain then (readNumber? scalar.content).bind StoryTemplate.word? else none
  isNull scalar := scalar.isPlain && nullSpellings.contains scalar.content
  isEmptyTable scalar := scalar = .missing
  sequenceIsRecord := false
  mappingIsChoice := false

end StoryTemplate.Yaml
