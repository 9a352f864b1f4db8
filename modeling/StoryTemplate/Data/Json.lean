import StoryTemplate.Data.Node

/-! # JSON — reading data in JSON notation

    A text is first divided into tokens and the tokens are then read as one
    node.  Numbers are kept as they are written, and of a string only the
    content: a string whose escapes name half of a surrogate pair has no
    content, and whoever needs it refuses it.

    Main facts: `length_lt_of_readString` and `length_lt_of_token` (every token
    takes up at least one character, so the division ends). -/

namespace StoryTemplate.Json

/-- A JSON scalar. -/
inductive Scalar
  | null
  | flag (value : Bool)
  /-- A number as it is written. -/
  | number (digits : Text)
  /-- A string; `none` if its escapes do not spell characters. -/
  | text (content : Option Text)
  deriving DecidableEq, Repr, Inhabited

/-- Data in JSON notation. -/
abbrev Value := Node Scalar

/-- A token. -/
inductive Token
  | openMapping
  | closeMapping
  | openSequence
  | closeSequence
  | comma
  | colon
  | scalar (value : Scalar)
  deriving DecidableEq, Repr

/-! ## Strings -/

/-- One unit of a string: a character as it stands, or the code unit of a
    `\u` escape. -/
inductive CodeUnit
  | plain (c : Char)
  | escaped (unit : Nat)
  deriving DecidableEq, Repr

/-- The value of a hexadecimal digit. -/
def hexDigit? (c : Char) : Option Nat :=
  if c.isDigit then some (c.toNat - 48)
  else if 'a' ≤ c && c ≤ 'f' then some (c.toNat - 87)
  else if 'A' ≤ c && c ≤ 'F' then some (c.toNat - 55)
  else none

/-- The value of a row of hexadecimal digits. -/
def hexValue? (digits : Text) : Option Nat :=
  digits.foldlM (fun value c => (hexDigit? c).map (value * 16 + ·)) 0

/-- The character that a backslash and the given letter stand for. -/
def escapedChar? (c : Char) : Option Char :=
  match c with
  | '"' | '\\' | '/' => some c
  | 'b' => some '\x08'
  | 'f' => some '\x0c'
  | 'n' => some '\n'
  | 'r' => some '\r'
  | 't' => some '\t'
  | _ => none

/-- Reads a string after its opening quote, up to and including the closing one. -/
def readString : Text → Option (List CodeUnit × Text)
  | [] => none
  | '"' :: rest => some ([], rest)
  | '\\' :: 'u' :: a :: b :: c :: d :: rest => do
    let unit ← hexValue? [a, b, c, d]
    let (units, rest) ← readString rest
    return (.escaped unit :: units, rest)
  | '\\' :: c :: rest => do
    let c ← escapedChar? c
    let (units, rest) ← readString rest
    return (.plain c :: units, rest)
  | '\\' :: [] => none
  | c :: rest =>
    if c.toNat < 0x20 then none
    else do
      let (units, rest) ← readString rest
      return (.plain c :: units, rest)

/-- Whether the code unit is the first half of a surrogate pair. -/
def isHighSurrogate (unit : Nat) : Bool := 0xD800 ≤ unit && unit < 0xDC00

/-- Whether the code unit is the second half of a surrogate pair. -/
def isLowSurrogate (unit : Nat) : Bool := 0xDC00 ≤ unit && unit < 0xE000

/-- The characters that the units of a string spell. -/
def spell? : List CodeUnit → Option Text
  | [] => some []
  | .plain c :: rest => (spell? rest).map (c :: ·)
  | .escaped high :: .escaped low :: rest =>
    if isHighSurrogate high then
      if isLowSurrogate low then
        (spell? rest).map (Char.ofNat (0x10000 + (high - 0xD800) * 0x400 + (low - 0xDC00)) :: ·)
      else none
    else if isLowSurrogate high then none
    else (spell? (.escaped low :: rest)).map (Char.ofNat high :: ·)
  | .escaped unit :: rest =>
    if isHighSurrogate unit || isLowSurrogate unit then none
    else (spell? rest).map (Char.ofNat unit :: ·)

/-! ## Numbers and words -/

/-- The text after a row of at least one digit. -/
def dropDigits? : Text → Option Text
  | c :: rest => if c.isDigit then some (rest.dropWhile Char.isDigit) else none
  | [] => none

/-- The text after the whole digits of a number, of which the first of several
    is not zero. -/
def dropWhole? : Text → Option Text
  | '0' :: rest => some rest
  | s => dropDigits? s

/-- The text after a fraction, which may be missing. -/
def dropFraction? : Text → Option Text
  | '.' :: rest => dropDigits? rest
  | s => some s

/-- The text after an exponent, which may be missing. -/
def dropExponent? : Text → Option Text
  | [] => some []
  | e :: rest =>
    if e = 'e' ∨ e = 'E' then
      match rest with
      | '+' :: digits => dropDigits? digits
      | '-' :: digits => dropDigits? digits
      | digits => dropDigits? digits
    else some (e :: rest)

/-- Whether the text is a number. -/
def isNumber (s : Text) : Bool :=
  let whole := match s with
    | '-' :: rest => rest
    | _ => s
  ((dropWhole? whole).bind dropFraction?).bind dropExponent? = some []

/-- The characters that numbers and words are written with. -/
def isScalarChar (c : Char) : Bool := c.isAlphanum || c == '-' || c == '+' || c == '.'

/-- Reads a number or a word. -/
def readScalar? (s : Text) : Option Scalar :=
  if s = ['n', 'u', 'l', 'l'] then some .null
  else if s = ['t', 'r', 'u', 'e'] then some (.flag true)
  else if s = ['f', 'a', 'l', 's', 'e'] then some (.flag false)
  else if isNumber s then some (.number s)
  else none

/-! ## Tokens -/

/-- White space between tokens. -/
def isSpace (c : Char) : Bool := c == ' ' || c == '\t' || c == '\n' || c == '\r'

/-- Reads the token at the beginning of the text. -/
def readToken : Text → Option (Token × Text)
  | [] => none
  | c :: rest =>
    match c with
    | '\x7b' => some (.openMapping, rest)
    | '\x7d' => some (.closeMapping, rest)
    | '[' => some (.openSequence, rest)
    | ']' => some (.closeSequence, rest)
    | ',' => some (.comma, rest)
    | ':' => some (.colon, rest)
    | '"' => (readString rest).map fun (units, rest) => (.scalar (.text (spell? units)), rest)
    | c =>
      if isScalarChar c then
        (readScalar? (c :: rest.takeWhile isScalarChar)).map fun scalar =>
          (.scalar scalar, rest.dropWhile isScalarChar)
      else none

theorem length_lt_of_readString {s rest : Text} {units : List CodeUnit}
    (h : readString s = some (units, rest)) : rest.length < s.length := by
  fun_induction readString s generalizing units rest with
  | case1 => simp at h
  | case2 rest => simp_all
  | case3 a b c d tail ih =>
    simp only [Option.bind_eq_bind, Option.bind_eq_some_iff, Option.pure_def, Option.some.injEq,
      Prod.mk.injEq, Prod.exists] at h
    obtain ⟨unit, _, units', rest', hrec, _, rfl⟩ := h
    have := ih hrec
    simp only [List.length_cons]
    omega
  | case4 c tail _ ih =>
    simp only [Option.bind_eq_bind, Option.bind_eq_some_iff, Option.pure_def, Option.some.injEq,
      Prod.mk.injEq, Prod.exists] at h
    obtain ⟨unit, _, units', rest', hrec, _, rfl⟩ := h
    have := ih hrec
    simp only [List.length_cons]
    omega
  | case5 => simp at h
  | case6 => simp at h
  | case7 c tail _ _ _ _ _ ih =>
    simp only [Option.bind_eq_bind, Option.bind_eq_some_iff, Option.pure_def, Option.some.injEq,
      Prod.mk.injEq, Prod.exists] at h
    obtain ⟨units', rest', hrec, _, rfl⟩ := h
    have := ih hrec
    simp only [List.length_cons]
    omega

/-- A token takes up at least one character. -/
theorem length_lt_of_token {s rest : Text} {token : Token}
    (h : readToken s = some (token, rest)) : rest.length < s.length := by
  cases s with
  | nil => simp [readToken] at h
  | cons c tail =>
    have hdrop := (List.dropWhile_sublist (l := tail) isScalarChar).length_le
    simp only [readToken] at h
    split at h
    case h_7 =>
      obtain ⟨⟨units, rest'⟩, hstring, heq⟩ := Option.map_eq_some_iff.1 h
      simp only [Prod.mk.injEq] at heq
      have := length_lt_of_readString hstring
      simp only [List.length_cons, ← heq.2]
      omega
    case h_8 =>
      split at h
      · obtain ⟨scalar, _, heq⟩ := Option.map_eq_some_iff.1 h
        simp only [Prod.mk.injEq] at heq
        simp only [List.length_cons, ← heq.2]
        omega
      · simp at h
    all_goals
      simp only [Option.some.injEq, Prod.mk.injEq] at h
      simp [← h.2]

/-- The tokens of a text. -/
def tokens? (s : Text) : Option (List Token) :=
  match _h : s.dropWhile isSpace with
  | [] => some []
  | c :: tail =>
    match _ht : readToken (c :: tail) with
    | none => none
    | some (token, rest) => (tokens? rest).map (token :: ·)
termination_by s.length
decreasing_by
  have h₁ := length_lt_of_token _ht
  have h₂ := (List.dropWhile_sublist (l := s) isSpace).length_le
  rw [_h] at h₂
  omega

/-! ## Nodes -/

mutual

/-- Reads a node from at most `fuel` tokens. -/
def readValue : Nat → List Token → Option (Value × List Token)
  | 0, _ => none
  | fuel + 1, tokens =>
    match tokens with
    | .scalar value :: rest => some (.scalar value, rest)
    | .openSequence :: .closeSequence :: rest => some (.sequence [], rest)
    | .openSequence :: rest =>
      (readItems fuel rest).map fun (items, rest) => (.sequence items, rest)
    | .openMapping :: .closeMapping :: rest => some (.mapping [], rest)
    | .openMapping :: rest =>
      (readEntries fuel rest).map fun (entries, rest) => (.mapping entries, rest)
    | _ => none

/-- Reads the items of a sequence up to its end. -/
def readItems : Nat → List Token → Option (List Value × List Token)
  | 0, _ => none
  | fuel + 1, tokens =>
    match readValue fuel tokens with
    | some (item, .comma :: rest) =>
      (readItems fuel rest).map fun (items, rest) => (item :: items, rest)
    | some (item, .closeSequence :: rest) => some ([item], rest)
    | _ => none

/-- Reads the entries of a mapping up to its end. -/
def readEntries : Nat → List Token → Option (List (Scalar × Value) × List Token)
  | 0, _ => none
  | fuel + 1, tokens =>
    match tokens with
    | .scalar (.text key) :: .colon :: rest =>
      match readValue fuel rest with
      | some (value, .comma :: rest) =>
        (readEntries fuel rest).map fun (entries, rest) => ((.text key, value) :: entries, rest)
      | some (value, .closeMapping :: rest) => some ([(.text key, value)], rest)
      | _ => none
    | _ => none

end

/-- Reads a text that is one node in JSON notation.  Every level of the reading
    takes a token, so as many levels as tokens are enough. -/
def read (s : Text) : Option Value := do
  let tokens ← tokens? s
  match readValue (tokens.length + 1) tokens with
  | some (value, []) => some value
  | _ => none

end StoryTemplate.Json
