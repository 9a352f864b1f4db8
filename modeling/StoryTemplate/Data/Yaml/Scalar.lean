import StoryTemplate.Data.Json
import StoryTemplate.Data.Yaml.Basic

/-! # YAML scalars as they are written

    A scalar may go over several lines.  The white space between two of its
    characters is a gap; a gap with a line break in it is folded, so that a
    single break stands for a space and further breaks for themselves.

    Main facts: `length_le_of_readPlain`, `length_le_of_readSingle` and
    `length_le_of_readDouble` (what is left after a scalar is no longer than
    what was there). -/

namespace StoryTemplate.Yaml

/-! ## Gaps -/

/-- White space within a scalar, as far as it is read. -/
structure Gap where
  /-- The spaces and tabs before the first line break. -/
  blanks : Text
  /-- The line breaks; `none` as long as the gap lies within a line. -/
  breaks : Option Text
  /-- Whether the first line break is folded. -/
  isFolded : Bool
  /-- The column after the last line break. -/
  column : Nat
  deriving DecidableEq, Repr

namespace Gap

/-- No white space. -/
def empty : Gap := ⟨[], none, true, 0⟩

/-- White space after a line break that a backslash takes away. -/
def afterEscape : Gap := ⟨[], some [], false, 0⟩

/-- Whether a line has ended in the gap. -/
def isBroken (gap : Gap) : Bool := gap.breaks.isSome

/-- The gap with one more space or tab; at the beginning of a line it is layout. -/
def addBlank (gap : Gap) (c : Char) : Gap :=
  if gap.isBroken then { gap with column := gap.column + 1 }
  else { gap with blanks := gap.blanks ++ [c] }

/-- The gap with one more line break, before the rest of the text. -/
def addBreak (gap : Gap) (c : Char) (rest : Text) : Gap :=
  if endsLine c rest then
    { gap with breaks := some (gap.breaks.getD [] ++ [if isSeparator c then c else '\n'])
               column := 0 }
  else gap

/-- What the gap stands for between two characters. -/
def content (gap : Gap) : Text :=
  match gap.breaks with
  | none => gap.blanks
  | some breaks =>
    if gap.isFolded then
      match breaks with
      | ['\n'] => [' ']
      | '\n' :: more => more
      | breaks => breaks
    else breaks

end Gap

/-! ## Plain scalars -/

/-- Whether a plain scalar begins here. -/
def beginsPlain (inFlow : Bool) : Text → Bool
  | [] => false
  | c :: rest =>
    !(isGap c || isBreak c || isIndicator c) || (c == '-' && !endsHere rest) ||
      (!inFlow && (c == '?' || c == ':') && !endsHere rest)

/-- Whether the character before the rest ends a plain scalar that goes on after
    the gap: a colon before white space, a comment after white space, a flow mark
    in a flow collection, a line that begins to the left of `indent` or with a
    document marker. -/
def endsPlain (inFlow : Bool) (indent : Nat) (gap : Gap) (c : Char) (rest : Text) : Bool :=
  (c == ':' && endsHere rest) || (inFlow && isFlowMark c) || (c == '#' && gap ≠ .empty) ||
    (gap.isBroken && ((!inFlow && gap.column < indent) ||
      (gap.column == 0 && beginsWithMarker (c :: rest))))

/-- Reads the rest of a plain scalar, with the gap that is read already.  The
    outcome is the content, whether a line has ended in the white space after it,
    and the text after that white space.  A tab to the left of `indent` is
    refused, and so is, in a flow collection, a colon before a question mark or a
    flow mark. -/
def readPlain (inFlow : Bool) (indent : Nat) (gap : Gap) : Text → Option (Text × Bool × Text)
  | [] => some ([], gap.isBroken, [])
  | c :: rest =>
    if isGap c then
      if c == '\t' && gap.isBroken && gap.column < indent then none
      else readPlain inFlow indent (gap.addBlank c) rest
    else if isBreak c then readPlain inFlow indent (gap.addBreak c rest) rest
    else if endsPlain inFlow indent gap c rest then some ([], gap.isBroken, c :: rest)
    else if inFlow && c == ':' && startsWith (fun d => d == '?' || isFlowMark d) rest then none
    else (readPlain inFlow indent .empty rest).map fun (content, broken, rest) =>
      (gap.content ++ c :: content, broken, rest)

/-! ## Quoted scalars -/

/-- Reads the rest of a scalar in single quotes, in which a quote is written
    twice.  No document marker may stand in it. -/
def readSingle (gap : Gap) : Text → Option (Text × Text)
  | [] => none
  | c :: rest =>
    if isGap c then readSingle (gap.addBlank c) rest
    else if isBreak c then readSingle (gap.addBreak c rest) rest
    else if gap.isBroken && gap.column == 0 && beginsWithMarker (c :: rest) then none
    else match c, rest with
      | '\x27', '\x27' :: rest => (readSingle .empty rest).map fun (content, rest) =>
          (gap.content ++ '\x27' :: content, rest)
      | '\x27', rest => some (gap.content, rest)
      | c, rest => (readSingle .empty rest).map fun (content, rest) =>
          (gap.content ++ c :: content, rest)

/-- The character that a backslash and the given letter stand for. -/
def escapedChar? (c : Char) : Option Char :=
  match c with
  | '0' => some '\x00'
  | 'a' => some '\x07'
  | 'b' => some '\x08'
  | 't' | '\t' => some '\t'
  | 'n' => some '\n'
  | 'v' => some '\x0b'
  | 'f' => some '\x0c'
  | 'r' => some '\r'
  | 'e' => some '\x1b'
  | ' ' | '"' | '/' | '\\' => some c
  | 'N' => some '\u0085'
  | '_' => some '\u00a0'
  | 'L' => some '\u2028'
  | 'P' => some '\u2029'
  | _ => none

/-- The number of digits of the code point after a backslash and the letter. -/
def escapedDigits? (c : Char) : Option Nat :=
  match c with
  | 'x' => some 2
  | 'u' => some 4
  | 'U' => some 8
  | _ => none

/-- The character with the code point that the hexadecimal digits name. -/
def charOfDigits? (digits : Text) : Option Char := do
  let code ← Json.hexValue? digits
  if code.isValidChar then some (Char.ofNat code) else none

/-- What an escape puts into a scalar, the number of characters that it takes up
    after the backslash and the letter, and the gap that it begins. -/
def readEscape (c : Char) (rest : Text) : Option (Text × Nat × Gap) :=
  if isBreak c then some ([], if endsLine c rest then 0 else 1, .afterEscape)
  else match escapedDigits? c with
    | some count =>
      if count ≤ rest.length then
        (charOfDigits? (rest.take count)).map fun decoded => ([decoded], count, .empty)
      else none
    | none => (escapedChar? c).map fun decoded => ([decoded], 0, .empty)

/-- Reads the rest of a scalar in double quotes.  `skip` counts the characters
    that an escape has used up already. -/
def readDouble (gap : Gap) : Nat → Text → Option (Text × Text)
  | _, [] => none
  | skip + 1, _ :: rest => readDouble gap skip rest
  | 0, c :: rest =>
    if isGap c then readDouble (gap.addBlank c) 0 rest
    else if isBreak c then readDouble (gap.addBreak c rest) 0 rest
    else if gap.isBroken && gap.column == 0 && beginsWithMarker (c :: rest) then none
    else match c, rest with
      | '"', rest => some (gap.content, rest)
      | '\\', [] => none
      | '\\', c :: rest => do
        let (decoded, skip, next) ← readEscape c rest
        let (content, rest) ← readDouble next skip rest
        return (gap.content ++ decoded ++ content, rest)
      | c, rest => (readDouble .empty 0 rest).map fun (content, rest) =>
          (gap.content ++ c :: content, rest)

/-! ## Lengths -/

theorem length_le_of_readPlain {inFlow broken : Bool} {indent : Nat} {gap : Gap}
    {s content rest : Text} (h : readPlain inFlow indent gap s = some (content, broken, rest)) :
    rest.length ≤ s.length := by
  induction s generalizing gap content with
  | nil => simp_all [readPlain]
  | cons c tail ih =>
    unfold readPlain at h
    split at h
    · split at h
      · simp at h
      · exact Nat.le_succ_of_le (ih h)
    · split at h
      · exact Nat.le_succ_of_le (ih h)
      · split at h
        · simp only [Option.some.injEq, Prod.mk.injEq] at h
          simp [← h.2.2]
        · split at h
          · simp at h
          · obtain ⟨⟨content', broken', rest'⟩, hrec, heq⟩ := Option.map_eq_some_iff.1 h
            simp only [Prod.mk.injEq] at heq
            obtain ⟨_, rfl, rfl⟩ := heq
            exact Nat.le_succ_of_le (ih hrec)

theorem length_le_of_readSingle {gap : Gap} {s content rest : Text}
    (h : readSingle gap s = some (content, rest)) : rest.length ≤ s.length := by
  fun_induction readSingle gap s generalizing content rest with
  | case1 => simp at h
  | case2 gap c tail _ ih => exact Nat.le_succ_of_le (ih h)
  | case3 gap c tail _ _ ih => exact Nat.le_succ_of_le (ih h)
  | case4 => simp at h
  | case5 gap tail _ _ _ ih =>
    obtain ⟨⟨content', rest'⟩, hrec, heq⟩ := Option.map_eq_some_iff.1 h
    simp only [Prod.mk.injEq] at heq
    have := ih hrec
    simp only [List.length_cons, ← heq.2]
    omega
  | case6 => simp_all
  | case7 gap c tail _ _ _ _ _ ih =>
    obtain ⟨⟨content', rest'⟩, hrec, heq⟩ := Option.map_eq_some_iff.1 h
    simp only [Prod.mk.injEq] at heq
    have := ih hrec
    simp only [List.length_cons, ← heq.2]
    omega

theorem length_le_of_readDouble {gap : Gap} {skip : Nat} {s content rest : Text}
    (h : readDouble gap skip s = some (content, rest)) : rest.length ≤ s.length := by
  fun_induction readDouble gap skip s generalizing content rest with
  | case1 => simp at h
  | case2 gap skip c tail ih => exact Nat.le_succ_of_le (ih h)
  | case3 gap c tail _ ih => exact Nat.le_succ_of_le (ih h)
  | case4 gap c tail _ _ ih => exact Nat.le_succ_of_le (ih h)
  | case5 => simp at h
  | case6 => simp_all
  | case7 => simp at h
  | case8 gap c tail _ _ _ ih =>
    simp only [Option.bind_eq_bind, Option.bind_eq_some_iff, Option.pure_def, Option.some.injEq,
      Prod.mk.injEq, Prod.exists] at h
    obtain ⟨_, _, _, _, content', rest', hrec, _, rfl⟩ := h
    have := ih _ _ hrec
    simp only [List.length_cons]
    omega
  | case9 gap c tail _ _ _ _ _ _ ih =>
    obtain ⟨⟨content', rest'⟩, hrec, heq⟩ := Option.map_eq_some_iff.1 h
    simp only [Prod.mk.injEq] at heq
    have := ih hrec
    simp only [List.length_cons, ← heq.2]
    omega

end StoryTemplate.Yaml
