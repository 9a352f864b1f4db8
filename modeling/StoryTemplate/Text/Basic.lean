/-! # Texts — characters, white space and words

    A text is the list of its characters, so a position counts characters and
    every statement about a text is a statement about a list.  This module
    fixes the two character classes that the template language knows (white
    space and word characters) and the ways of trimming a text by them.

    Main facts: `not_isBlank_of_isWord` (the two classes have no character in
    common) and `trimStart_append_eq` (trimming only removes a blank prefix). -/

namespace StoryTemplate

/-- A text is the list of its characters. -/
abbrev Text := List Char

/-! ## Character classes -/

/-- The code points with the Unicode property White_Space, as closed ranges in
    ascending order. -/
def blankRanges : List (Nat × Nat) :=
  [(0x09, 0x0D), (0x20, 0x20), (0x85, 0x85), (0xA0, 0xA0), (0x1680, 0x1680),
   (0x2000, 0x200A), (0x2028, 0x2029), (0x202F, 0x202F), (0x205F, 0x205F),
   (0x3000, 0x3000)]

/-- White space: the characters of `blankRanges`. -/
def isBlank (c : Char) : Bool :=
  blankRanges.any fun r => r.1 ≤ c.toNat && c.toNat ≤ r.2

/-- Word characters make up names, values and parameters: ASCII letters,
    digits and the underscore. -/
def isWord (c : Char) : Bool :=
  c.isAlphanum || c == '_'

/-- No character is both white space and part of a word. -/
theorem not_isBlank_of_isWord {c : Char} (h : isWord c) : isBlank c = false := by
  have hrange : (48 ≤ c.toNat ∧ c.toNat ≤ 57) ∨ (65 ≤ c.toNat ∧ c.toNat ≤ 90) ∨
      c.toNat = 95 ∨ (97 ≤ c.toNat ∧ c.toNat ≤ 122) := by
    have hclasses : isWord c = (((decide (65 ≤ c.val ∧ c.val ≤ 90) ||
        (decide (97 ≤ c.val) && decide (c.val ≤ 122))) ||
        (decide (48 ≤ c.val) && decide (c.val ≤ 57))) || c == '_') := rfl
    simp only [hclasses, Bool.or_eq_true, Bool.and_eq_true, decide_eq_true_eq, beq_iff_eq,
      UInt32.le_iff_toNat_le] at h
    rcases h with ((h | h) | h) | rfl
    · exact .inr (.inl h)
    · exact .inr (.inr (.inr h))
    · exact .inl h
    · exact .inr (.inr (.inl rfl))
  simp only [isBlank, blankRanges, List.any_cons, List.any_nil, Bool.or_false,
    Bool.or_eq_false_iff, Bool.and_eq_false_iff, decide_eq_false_iff_not]
  omega

/-! ## Trimming -/

/-- The text without its leading white space. -/
def trimStart (s : Text) : Text := s.dropWhile isBlank

/-- The text without its trailing white space. -/
def trimEnd (s : Text) : Text := (s.reverse.dropWhile isBlank).reverse

/-- The text without the white space around it. -/
def trim (s : Text) : Text := trimEnd (trimStart s)

/-- Whether the text holds nothing but white space. -/
def isBlankText (s : Text) : Bool := s.all isBlank

/-- Trimming the start removes the longest blank prefix and nothing else. -/
theorem trimStart_append_eq (s : Text) : s.takeWhile isBlank ++ trimStart s = s :=
  List.takeWhile_append_dropWhile

/-- Trimming the start leaves a blank text empty, and only such a text. -/
theorem trimStart_eq_nil_iff {s : Text} : trimStart s = [] ↔ isBlankText s := by
  induction s with
  | nil => simp [trimStart, isBlankText]
  | cons c r ih =>
    cases h : isBlank c
    · simp [trimStart, isBlankText, h]
    · simp only [trimStart, isBlankText, List.dropWhile_cons, h, if_true, List.all_cons,
        Bool.true_and] at ih ⊢
      exact ih

/-- Whether the text begins with a character of the class. -/
def startsWith (p : Char → Bool) : Text → Bool
  | [] => false
  | c :: _ => p c

end StoryTemplate
