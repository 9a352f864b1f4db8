import Mathlib.Algebra.Group.Int.Defs
import Mathlib.Data.Int.Basic
import Mathlib.Data.List.Basic
import StoryTemplate.Proofs.Text.Cuts
import StoryTemplate.Rendered

/-! # Numerals — the texts that are read as integers

    An integer may be written with a sign, with zeros in front of its digits and with
    spaces around it all.  None of that changes the value: it is read exactly, or not at
    all if it is out of range.  Zeros cannot bring a numeral out of range, because the
    value is that of the number and not of the row of digits.

    Main facts: `Numeral.integerOf_text` (numerals are read) and
    `isSignedDigits_of_integerOf` (nothing else is). -/

namespace StoryTemplate

/-! ## Signs and digits -/

/-- What may stand in front of the digits. -/
inductive Sign
  | none
  | plus
  | minus
  deriving DecidableEq

namespace Sign

def text : Sign → Text
  | .none => []
  | .plus => ['+']
  | .minus => ['-']

/-- The integer with the sign and the magnitude. -/
def apply : Sign → Nat → Int
  | .minus, n => -n
  | .plus, n => n
  | .none, n => n

end Sign

/-- The sign in front of a text, and what is behind it. -/
def takeSign : Text → Sign × Text
  | '-' :: r => (.minus, r)
  | '+' :: r => (.plus, r)
  | s => (.none, s)

/-- An optional sign, and at least one ASCII digit. -/
def IsSignedDigits (s : Text) : Prop :=
  ∃ (sign : Sign) (digits : Text),
    s = sign.text ++ digits ∧ digits ≠ [] ∧ digits.all Char.isDigit = true

/-- The integer, if it lies between the ends of 64 bits with a sign. -/
def inRange? (n : Int) : Option Int := if -2 ^ 63 ≤ n ∧ n ≤ 2 ^ 63 - 1 then some n else none

section Reading

variable {s digits : Text} {n : Int}

theorem fitsSigned_iff (n : Int) : fitsSigned n = true ↔ -2 ^ 63 ≤ n ∧ n ≤ 2 ^ 63 - 1 := by
  simp [fitsSigned]

theorem isBlank_of_mem_spaces (n : Nat) : ∀ c ∈ List.replicate n ' ', isBlank c = true := by
  intro c hc
  rw [List.eq_of_mem_replicate hc]
  decide

theorem not_isBlank_of_isDigit {c : Char} (h : c.isDigit) : isBlank c = false :=
  not_isBlank_of_isWord (by simp [isWord, Char.isAlphanum, h])

theorem takeSign_of_no_sign (hminus : ∀ r, s = '-' :: r → False)
    (hplus : ∀ r, s = '+' :: r → False) : takeSign s = (.none, s) := takeSign.eq_3 s hminus hplus

/-- Reading takes the sign off and reads the digits. -/
theorem readSigned_eq (s : Text) : readSigned s =
    ((readNatural (takeSign s).2).map (takeSign s).1.apply).filter fitsSigned := by
  unfold readSigned
  split
  · rename_i r
    show _ = ((readNatural r).map Sign.minus.apply).filter fitsSigned
    cases readNatural r <;> rfl
  · rename_i r
    show _ = ((readNatural r).map Sign.plus.apply).filter fitsSigned
    cases readNatural r <;> rfl
  · rename_i hminus hplus
    rw [takeSign_of_no_sign hminus hplus]
    cases readNatural s <;> rfl

theorem text_takeSign (s : Text) : (takeSign s).1.text ++ (takeSign s).2 = s := by
  unfold takeSign
  split <;> rfl

theorem takeSign_text (sign : Sign) (hne : digits ≠ []) (hall : digits.all Char.isDigit = true) :
    takeSign (sign.text ++ digits) = (sign, digits) := by
  cases sign with
  | plus => rfl
  | minus => rfl
  | none =>
      obtain ⟨c, r, rfl⟩ := List.exists_cons_of_ne_nil hne
      have hdigit : c.isDigit = true := List.all_eq_true.1 hall c List.mem_cons_self
      -- A digit is not taken for a sign.
      refine takeSign_of_no_sign ?_ ?_
      · intro rest heq
        obtain rfl := (List.cons.inj heq).1
        exact absurd hdigit (by decide)
      · intro rest heq
        obtain rfl := (List.cons.inj heq).1
        exact absurd hdigit (by decide)

/-- A signed row of digits is read as its value, if that is in range. -/
theorem readSigned_sign (sign : Sign) (hne : digits ≠ [])
    (hall : digits.all Char.isDigit = true) :
    readSigned (sign.text ++ digits) =
      (some (sign.apply (digitsValue digits))).filter fitsSigned := by
  rw [readSigned_eq, takeSign_text sign hne hall, readNatural, if_pos ⟨hne, hall⟩]
  rfl

/-- Only a signed row of digits is read. -/
theorem isSignedDigits_of_readSigned (h : readSigned s = some n) : IsSignedDigits s := by
  rw [readSigned_eq] at h
  obtain ⟨hmap, -⟩ := Option.filter_eq_some_iff.1 h
  obtain ⟨magnitude, hnatural, -⟩ := Option.map_eq_some_iff.1 hmap
  obtain ⟨hne, hall, -⟩ := readNatural_eq_some hnatural
  exact ⟨(takeSign s).1, (takeSign s).2, (text_takeSign s).symm, hne, hall⟩

/-- What is read as an integer is a signed row of digits, white space around it aside. -/
theorem isSignedDigits_of_integerOf (h : integerOf s = some n) : IsSignedDigits (trim s) :=
  isSignedDigits_of_readSigned h

end Reading

theorem digitsValue_eq_ofDigitChars (s : Text) : digitsValue s = Nat.ofDigitChars 10 s 0 := by
  rw [digitsValue, Nat.ofDigitChars]
  congr 1
  funext value c
  rw [Nat.mul_comm]
  rfl

/-- The digits of a number stand for the number, whatever number of zeros is in front. -/
theorem digitsValue_decimal (zeros magnitude : Nat) :
    digitsValue (List.replicate zeros '0' ++ decimal magnitude) = magnitude := by
  have hzeros : Nat.ofDigitChars 10 (List.replicate zeros '0') 0 = 0 := by
    induction zeros with
    | zero => rfl
    | succ zeros ih => exact ih
  rw [digitsValue_eq_ofDigitChars, Nat.ofDigitChars, List.foldl_append, ← Nat.ofDigitChars,
    ← Nat.ofDigitChars, hzeros]
  exact Nat.ofDigitChars_ten_toDigits

/-! ## Numerals -/

/-- An integer as it is written. -/
structure Numeral where
  /-- The number of spaces in front. -/
  before : Nat
  sign : Sign
  /-- The number of zeros in front of the digits. -/
  zeros : Nat
  magnitude : Nat
  /-- The number of spaces behind. -/
  after : Nat
  deriving DecidableEq

namespace Numeral

variable (numeral : Numeral)

/-- The integer that is written. -/
def value : Int := numeral.sign.apply numeral.magnitude

/-- The zeros in front, and then the number in decimal notation. -/
def digits : Text := List.replicate numeral.zeros '0' ++ decimal numeral.magnitude

/-- The numeral without the spaces around it. -/
def core : Text := numeral.sign.text ++ numeral.digits

def text : Text :=
  List.replicate numeral.before ' ' ++ numeral.core ++ List.replicate numeral.after ' '

/-- The numeral without the spaces behind it. -/
def bare : Numeral := { numeral with after := 0 }

/-- Every integer can be written. -/
theorem value_surjective : Function.Surjective value := by
  intro n
  obtain ⟨magnitude, rfl | rfl⟩ := n.eq_nat_or_neg
  · exact ⟨⟨0, .none, 0, magnitude, 0⟩, rfl⟩
  · exact ⟨⟨0, .minus, 0, magnitude, 0⟩, rfl⟩

theorem digits_ne_nil : numeral.digits ≠ [] :=
  List.append_ne_nil_of_right_ne_nil _ Nat.toDigits_ne_nil

theorem all_digits : numeral.digits.all Char.isDigit = true := by
  rw [List.all_eq_true]
  intro c hc
  rcases List.mem_append.1 hc with hc | hc
  · rw [List.eq_of_mem_replicate hc]
    decide
  · exact Nat.isDigit_of_mem_toDigits (by decide) (by decide) hc

theorem isDigit_of_mem_digits {c : Char} (hc : c ∈ numeral.digits) : c.isDigit = true :=
  List.all_eq_true.1 numeral.all_digits c hc

theorem core_ne_nil : numeral.core ≠ [] :=
  List.append_ne_nil_of_right_ne_nil _ numeral.digits_ne_nil

/-- A numeral begins with its sign or with a digit. -/
theorem startsWith_core : startsWith isBlank numeral.core = false := by
  rw [core]
  cases numeral.sign with
  | plus => rfl
  | minus => rfl
  | none =>
      obtain ⟨c, r, hdigits⟩ := List.exists_cons_of_ne_nil numeral.digits_ne_nil
      have hc : c ∈ numeral.digits := hdigits ▸ List.mem_cons_self
      rw [hdigits]
      exact not_isBlank_of_isDigit (numeral.isDigit_of_mem_digits hc)

/-- A numeral ends with a digit, if no spaces are behind it. -/
theorem getLast?_core : numeral.core.getLast?.any isBlank = false := by
  rw [core, List.getLast?_append_of_ne_nil _ numeral.digits_ne_nil,
    Option.any_eq_false_iff_get]
  intro h
  exact not_isBlank_of_isDigit
    (numeral.isDigit_of_mem_digits (List.mem_of_getLast? (Option.get_mem h)))

theorem text_ne_nil : numeral.text ≠ [] :=
  List.append_ne_nil_of_left_ne_nil
    (List.append_ne_nil_of_right_ne_nil _ numeral.core_ne_nil) _

theorem bare_text : numeral.bare.text = List.replicate numeral.before ' ' ++ numeral.core :=
  List.append_nil _

theorem getLast?_bare_text : numeral.bare.text.getLast?.any isBlank = false := by
  rw [bare_text, List.getLast?_append_of_ne_nil _ numeral.core_ne_nil, numeral.getLast?_core]

/-- A numeral is spaces, its sign and digits. -/
theorem not_mem_text {c : Char} (hspace : c ≠ ' ') (hplus : c ≠ '+') (hminus : c ≠ '-')
    (hdigit : c.isDigit = false) : c ∉ numeral.text := by
  have hpad : ∀ n, c ∉ List.replicate n ' ' := fun n h => hspace (List.eq_of_mem_replicate h)
  have hsign : c ∉ numeral.sign.text := by
    cases numeral.sign with
    | none => exact List.not_mem_nil
    | plus => exact fun h => hplus (List.eq_of_mem_singleton h)
    | minus => exact fun h => hminus (List.eq_of_mem_singleton h)
  have hdigits : c ∉ numeral.digits := by
    intro h
    rw [numeral.isDigit_of_mem_digits h] at hdigit
    cases hdigit
  simp only [text, core, List.mem_append, not_or]
  exact ⟨⟨hpad _, hsign, hdigits⟩, hpad _⟩

theorem trim_text : trim numeral.text = numeral.core :=
  trim_between (isBlank_of_mem_spaces _) (isBlank_of_mem_spaces _) numeral.core_ne_nil
    numeral.startsWith_core numeral.getLast?_core

/-- A numeral is read as its value, up to the ends of the range. -/
theorem integerOf_text : integerOf numeral.text = inRange? numeral.value := by
  rw [integerOf, trim_text, core, readSigned_sign _ numeral.digits_ne_nil numeral.all_digits,
    digits, digitsValue_decimal, ← value, Option.filter_some]
  exact if_congr (fitsSigned_iff _) rfl rfl

end Numeral
end StoryTemplate
