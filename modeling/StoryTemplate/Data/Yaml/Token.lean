import StoryTemplate.Data.Yaml.Scalar

/-! # YAML tokens — the layout of a text made explicit

    A text is divided into tokens in one scan.  A mark is what is written in the
    text itself; the tokens say besides where the block collections begin and
    end, and before each key that it is one.  That turns out only at the colon
    after the key, so the scan remembers for every open collection the token that
    may be a key, and puts the token for the key in front of it later.

    Block collections are told by their columns.  A key that is not announced by
    a question mark stands on one line with its colon and has no more than 1024
    bytes.

    Main facts: `length_le_of_readMark` and `length_le_of_step` (every step of the
    scan takes up at least one character, so the scan ends). -/

namespace StoryTemplate.Yaml

/-- A token. -/
inductive Token
  | documentStart
  | documentEnd
  | beginMapping
  | beginSequence
  | endBlock
  | openMapping
  | closeMapping
  | openSequence
  | closeSequence
  | comma
  | dash
  | key
  | value
  | scalar (value : Scalar)
  deriving DecidableEq, Repr

/-! ## Marks -/

/-- What is written in a text, white space and comments aside. -/
inductive Mark
  | documentStart
  | documentEnd
  | openMapping
  | closeMapping
  | openSequence
  | closeSequence
  | comma
  | dash
  | question
  | colon
  /-- A scalar, and whether a line has ended in the white space read with it. -/
  | scalar (value : Scalar) (broken : Bool)
  deriving DecidableEq, Repr

/-- Reads the mark that the character and the rest of the text begin with.  The
    column is that of the character, and `indent` is the least column of what the
    innermost block collection holds. -/
def readMark (inFlow : Bool) (column indent : Nat) (c : Char) (rest : Text) :
    Option (Mark × Text) :=
  if column == 0 && beginsWithThree '-' (c :: rest) then some (.documentStart, rest.drop 2)
  else if column == 0 && beginsWithThree '.' (c :: rest) then some (.documentEnd, rest.drop 2)
  else if c == '-' && endsHere rest then some (.dash, rest)
  else if c == '?' && (inFlow || endsHere rest) then some (.question, rest)
  else if c == ':' && (inFlow || endsHere rest) then some (.colon, rest)
  else if beginsPlain inFlow (c :: rest) then
    (readPlain inFlow indent .empty rest).map fun (content, broken, rest) =>
      (.scalar ⟨true, c :: content⟩ broken, rest)
  else match c with
    | '\x7b' => some (.openMapping, rest)
    | '\x7d' => some (.closeMapping, rest)
    | '[' => some (.openSequence, rest)
    | ']' => some (.closeSequence, rest)
    | ',' => some (.comma, rest)
    | '\x27' => (readSingle .empty rest).map fun (content, rest) =>
        (.scalar ⟨false, content⟩ false, rest)
    | '"' => (readDouble .empty 0 rest).map fun (content, rest) =>
        (.scalar ⟨false, content⟩ false, rest)
    | _ => none

theorem length_le_of_readMark {inFlow : Bool} {column indent : Nat} {c : Char} {s rest : Text}
    {mark : Mark} (h : readMark inFlow column indent c s = some (mark, rest)) :
    rest.length ≤ s.length := by
  have hdrop : (s.drop 2).length ≤ s.length := by simp
  unfold readMark at h
  split at h
  · simp only [Option.some.injEq, Prod.mk.injEq] at h
    exact h.2 ▸ hdrop
  split at h
  · simp only [Option.some.injEq, Prod.mk.injEq] at h
    exact h.2 ▸ hdrop
  split at h
  · simp_all
  split at h
  · simp_all
  split at h
  · simp_all
  split at h
  · obtain ⟨⟨content, broken, rest'⟩, hplain, heq⟩ := Option.map_eq_some_iff.1 h
    simp only [Prod.mk.injEq] at heq
    exact heq.2 ▸ length_le_of_readPlain hplain
  split at h
  case h_6 =>
    obtain ⟨⟨content, rest'⟩, hsingle, heq⟩ := Option.map_eq_some_iff.1 h
    simp only [Prod.mk.injEq] at heq
    exact heq.2 ▸ length_le_of_readSingle hsingle
  case h_7 =>
    obtain ⟨⟨content, rest'⟩, hdouble, heq⟩ := Option.map_eq_some_iff.1 h
    simp only [Prod.mk.injEq] at heq
    exact heq.2 ▸ length_le_of_readDouble hdouble
  all_goals simp_all

/-! ## Places -/

/-- A place in a text. -/
structure Place where
  /-- The number of bytes before it. -/
  offset : Nat
  line : Nat
  column : Nat
  deriving DecidableEq, Repr

namespace Place

/-- The place after the character. -/
def next (place : Place) (c : Char) (rest : Text) : Place :=
  if endsLine c rest then ⟨place.offset + c.utf8Size, place.line + 1, 0⟩
  else ⟨place.offset + c.utf8Size, place.line, place.column + 1⟩

/-- The place after the text. -/
def past (place : Place) : Text → Place
  | [] => place
  | c :: rest => (place.next c rest).past rest

end Place

/-! ## Layout -/

/-- A token that may turn out to be a key. -/
structure Candidate where
  place : Place
  /-- The number of tokens before it. -/
  index : Nat
  /-- Whether nothing but a key may stand there. -/
  isRequired : Bool
  deriving DecidableEq, Repr

/-- How far a text is divided into tokens. -/
structure Layout where
  tokens : Array Token := #[]
  place : Place := ⟨0, 0, 0⟩
  /-- The columns of the open block collections, innermost first. -/
  columns : List Nat := []
  /-- The candidate in the innermost open collection. -/
  candidate : Option Candidate := none
  /-- For every open flow collection the candidate in what holds it, innermost
      first. -/
  outer : List (Option Candidate) := []
  /-- Whether a key may begin here. -/
  allowsKey : Bool := true

namespace Layout

/-- Whether a flow collection is open. -/
def inFlow (layout : Layout) : Bool := !layout.outer.isEmpty

/-- The least column of what the innermost block collection holds. -/
def indent (layout : Layout) : Nat := layout.columns.head?.elim 0 (· + 1)

/-- Adds a token at the end. -/
def push (layout : Layout) (token : Token) : Layout :=
  { layout with tokens := layout.tokens.push token }

/-- Adds a token after the given number of tokens. -/
def insertAt (layout : Layout) (index : Nat) (token : Token) : Layout :=
  { layout with tokens := layout.tokens.insertIdxIfInBounds index token }

/-- Opens a block collection at the column, after the given number of tokens, if
    the column lies to the right of those that are open. -/
def openBlock (layout : Layout) (column index : Nat) (token : Token) : Layout :=
  if layout.inFlow || column < layout.indent then layout
  else { layout.insertAt index token with columns := column :: layout.columns }

/-- Closes the innermost block collections as long as their columns pass the
    test. -/
def closeBlocks (layout : Layout) (isClosed : Nat → Bool) : Layout :=
  if layout.inFlow then layout
  else
    let closed := layout.columns.takeWhile isClosed
    { layout with
      tokens := layout.tokens ++ Array.replicate closed.length Token.endBlock
      columns := layout.columns.dropWhile isClosed }

/-! ### Candidates -/

/-- The candidate, unless it is too far away from the place to be a key.  One that
    had to be a key is refused then. -/
def refresh (place : Place) : Option Candidate → Option (Option Candidate)
  | none => some none
  | some candidate =>
    if candidate.place.line < place.line || candidate.place.offset + 1024 < place.offset then
      if candidate.isRequired then none else some none
    else some (some candidate)

/-- Gives up the candidates that are too far away. -/
def dropStale (layout : Layout) : Option Layout := do
  let candidate ← refresh layout.place layout.candidate
  let outer ← layout.outer.mapM (refresh layout.place)
  return { layout with candidate := candidate, outer := outer }

/-- Gives up the candidate, which must not have to be a key. -/
def forget (layout : Layout) : Option Layout :=
  if layout.candidate.any (·.isRequired) then none else some { layout with candidate := none }

/-- Makes the next token a candidate if a key may begin here. -/
def offer (layout : Layout) : Option Layout :=
  if layout.allowsKey then
    let isRequired := !layout.inFlow && layout.columns.head? == some layout.place.column
    (forget layout).map fun layout =>
      { layout with candidate := some ⟨layout.place, layout.tokens.size, isRequired⟩ }
  else some layout

/-! ### Marks -/

/-- Adds the marker of a document, which closes all blocks. -/
def addMarker (layout : Layout) (token : Token) : Option Layout :=
  (forget (layout.closeBlocks fun _ => true)).map fun layout =>
    { layout.push token with allowsKey := false }

/-- Opens a flow collection, which may be a key as a whole. -/
def openFlow (layout : Layout) (token : Token) : Option Layout :=
  (offer layout).map fun layout =>
    { layout.push token with
      candidate := none
      outer := layout.candidate :: layout.outer
      allowsKey := true }

/-- Closes a flow collection. -/
def closeFlow (layout : Layout) (token : Token) : Option Layout :=
  (forget layout).map fun layout =>
    { layout.push token with
      candidate := layout.outer.head?.join
      outer := layout.outer.tail
      allowsKey := false }

/-- Adds the dash of an item. -/
def addDash (layout : Layout) : Option Layout :=
  if !layout.inFlow && !layout.allowsKey then none
  else
    let layout := layout.openBlock layout.place.column layout.tokens.size .beginSequence
    (forget layout).map fun layout => { layout.push .dash with allowsKey := true }

/-- Adds the question mark of a key. -/
def addQuestion (layout : Layout) : Option Layout :=
  if !layout.inFlow && !layout.allowsKey then none
  else
    let layout := layout.openBlock layout.place.column layout.tokens.size .beginMapping
    (forget layout).map fun layout => { layout.push .key with allowsKey := !layout.inFlow }

/-- Adds the colon of a value.  If there is a candidate, it is the key. -/
def addColon (layout : Layout) : Option Layout :=
  match layout.candidate with
  | some candidate =>
    let layout := layout.insertAt candidate.index .key
    let layout := layout.openBlock candidate.place.column candidate.index .beginMapping
    some { layout.push .value with candidate := none, allowsKey := false }
  | none =>
    if !layout.inFlow && !layout.allowsKey then none
    else
      let layout := layout.openBlock layout.place.column layout.tokens.size .beginMapping
      some { layout.push .value with allowsKey := !layout.inFlow }

/-- Adds a mark. -/
def add (layout : Layout) : Mark → Option Layout
  | .documentStart => layout.addMarker .documentStart
  | .documentEnd => layout.addMarker .documentEnd
  | .openMapping => layout.openFlow .openMapping
  | .openSequence => layout.openFlow .openSequence
  | .closeMapping => layout.closeFlow .closeMapping
  | .closeSequence => layout.closeFlow .closeSequence
  | .comma => (forget layout).map fun layout => { layout.push .comma with allowsKey := true }
  | .dash => layout.addDash
  | .question => layout.addQuestion
  | .colon => layout.addColon
  | .scalar value broken => (offer layout).map fun layout =>
      { layout.push (.scalar value) with allowsKey := broken }

/-! ## The scan -/

/-- Moves on over the character, or over all that begins with it and belongs
    together. -/
def step (layout : Layout) (c : Char) (rest : Text) : Option (Layout × Text) :=
  let moved := { layout with place := layout.place.next c rest }
  -- A byte order mark may stand at the beginning of a line, where it takes up a column.
  if c == '\ufeff' && layout.place.column == 0 then some (moved, rest)
  else if isBreak c then
    some ({ moved with allowsKey := layout.allowsKey || !layout.inFlow }, rest)
  -- A tab is no indentation, so none may stand where a key might begin a block.
  else if c == ' ' || (c == '\t' && (layout.inFlow || !layout.allowsKey)) then some (moved, rest)
  else if c == '#' then
    let comment := rest.takeWhile fun c => !isBreak c
    some ({ moved with place := moved.place.past comment }, rest.dropWhile fun c => !isBreak c)
  else do
    let layout ← layout.dropStale
    let layout := layout.closeBlocks (layout.place.column < ·)
    let (mark, after) ← readMark layout.inFlow layout.place.column layout.indent c rest
    let place := layout.place.past ((c :: rest).take (rest.length + 1 - after.length))
    let layout ← layout.add mark
    return ({ layout with place := place }, after)

/-- The tokens of a text that is divided to its end. -/
def finish (layout : Layout) : Option (List Token) := do
  let layout ← layout.dropStale
  let layout ← forget (layout.closeBlocks fun _ => true)
  return layout.tokens.toList

theorem length_le_of_step {layout next : Layout} {c : Char} {rest after : Text}
    (h : layout.step c rest = some (next, after)) : after.length ≤ rest.length := by
  have hdrop := (List.dropWhile_sublist (l := rest) fun c => !isBreak c).length_le
  unfold step at h
  simp only at h
  split at h
  · simp_all
  split at h
  · simp_all
  split at h
  · simp_all
  split at h
  · simp only [Option.some.injEq, Prod.mk.injEq] at h
    exact h.2 ▸ hdrop
  · simp only [Option.bind_eq_bind, Option.bind_eq_some_iff, Option.pure_def, Option.some.injEq,
      Prod.mk.injEq, Prod.exists] at h
    obtain ⟨_, _, mark, after', hmark, _, _, _, rfl⟩ := h
    exact length_le_of_readMark hmark

/-- Divides the rest of a text into tokens. -/
def run (layout : Layout) (s : Text) : Option (List Token) :=
  match s with
  | [] => layout.finish
  | c :: rest =>
    match _h : layout.step c rest with
    | none => none
    | some (next, after) => next.run after
termination_by s.length
decreasing_by exact Nat.lt_succ_of_le (length_le_of_step _h)

end Layout

/-- The tokens of a text. -/
def tokens? (s : Text) : Option (List Token) :=
  if s.all isAllowed then ({} : Layout).run s else none

end StoryTemplate.Yaml
