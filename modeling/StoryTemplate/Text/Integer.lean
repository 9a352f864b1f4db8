import StoryTemplate.Text.Basic

/-! # Integers in decimal notation

    A signed integer is an optional sign and at least one ASCII digit; leading
    zeros are allowed and a value outside the 64-bit range is refused.  White
    space is never part of the notation: callers trim.

    Main fact: `readNatural_eq_some` (what is read is all digits). -/

namespace StoryTemplate

/-! ## Natural numbers -/

/-- The value of a decimal digit character. -/
def digitValue (c : Char) : Nat := c.toNat - 48

/-- The number that a row of digits stands for, the most significant digit first. -/
def digitsValue (s : Text) : Nat :=
  s.foldl (fun value c => value * 10 + digitValue c) 0

/-- Reads a non-empty row of ASCII digits. -/
def readNatural (s : Text) : Option Nat :=
  if s ≠ [] ∧ s.all Char.isDigit then some (digitsValue s) else none

/-- The number as a word of 64 bits, if it fits in one. -/
def word? (n : Nat) : Option UInt64 := if n < UInt64.size then some (UInt64.ofNat n) else none

/-- Reads a row of digits with an optional plus sign as a word of 64 bits. -/
def readWord (s : Text) : Option UInt64 :=
  let digits := match s with
    | '+' :: r => r
    | _ => s
  (readNatural digits).bind word?

/-- The decimal digits of a number, without leading zeros. -/
def decimal (n : Nat) : Text := Nat.toDigits 10 n

/-! ## Signed numbers of 64 bits -/

/-- Whether the integer fits in 64 bits with a sign. -/
def fitsSigned (n : Int) : Bool := -9223372036854775808 ≤ n && n ≤ 9223372036854775807

/-- Reads an optionally signed row of digits in the signed 64-bit range. -/
def readSigned (s : Text) : Option Int :=
  let value := match s with
    | '-' :: r => (readNatural r).map fun n => -(n : Int)
    | '+' :: r => (readNatural r).map fun n => (n : Int)
    | _ => (readNatural s).map fun n => (n : Int)
  value.filter fitsSigned

/-! ## Laws -/

/-- What is read as a natural number is a non-empty row of digits. -/
theorem readNatural_eq_some {s : Text} {n : Nat} (h : readNatural s = some n) :
    s ≠ [] ∧ s.all Char.isDigit ∧ n = digitsValue s := by
  unfold readNatural at h
  split at h
  · rename_i hs
    exact ⟨hs.1, hs.2, (Option.some.inj h).symm⟩
  · exact absurd h (by simp)

end StoryTemplate
