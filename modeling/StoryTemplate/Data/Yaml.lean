import StoryTemplate.Data.Yaml.Token

/-! # YAML — reading data in YAML notation

    The tokens of a text say where every collection begins and ends, so a
    document is read from them without regard to its layout.  A key or a value
    that is not written is a missing scalar, and only scalars may be keys.

    A text holds at most one document. -/

namespace StoryTemplate.Yaml

/-! ## Nodes -/

mutual

/-- Reads a node.  Block collections stand only where `inBlock` allows them, and
    items without a collection of their own only as the value of a key. -/
def readNode (inBlock ofKey : Bool) : Nat → List Token → Option (Value × List Token)
  | 0, _ => none
  | fuel + 1, tokens =>
    match tokens with
    | .scalar value :: rest => some (.scalar value, rest)
    | .openSequence :: rest =>
      (readItems true fuel rest).map fun (items, rest) => (.sequence items, rest)
    | .openMapping :: rest =>
      (readEntries true fuel rest).map fun (entries, rest) => (.mapping entries, rest)
    | .beginSequence :: rest =>
      if inBlock then
        match readBlockItems fuel rest with
        | some (items, .endBlock :: rest) => some (.sequence items, rest)
        | _ => none
      else none
    | .beginMapping :: rest =>
      if inBlock then
        (readBlockEntries fuel rest).map fun (entries, rest) => (.mapping entries, rest)
      else none
    | .dash :: rest =>
      if ofKey then
        (readBlockItems fuel (.dash :: rest)).map fun (items, rest) => (.sequence items, rest)
      else none
    | _ => none

/-- Reads a node, or a missing one before one of the given tokens. -/
def readNodeBefore (ends : List Token) (inBlock ofKey : Bool) :
    Nat → List Token → Option (Value × List Token)
  | 0, _ => none
  | fuel + 1, tokens =>
    if tokens.head?.any ends.contains then some (.scalar .missing, tokens)
    else readNode inBlock ofKey fuel tokens

/-- Reads what follows a key: the value, which may be left out. -/
def readValue (ends : List Token) (inBlock : Bool) : Nat → List Token → Option (Value × List Token)
  | 0, _ => none
  | fuel + 1, tokens =>
    match tokens with
    | .value :: rest => readNodeBefore ends inBlock inBlock fuel rest
    | _ => some (.scalar .missing, tokens)

/-- Reads the items of a flow sequence up to its end; a comma stands before each
    but the first.  An item may be a mapping of one entry without its braces. -/
def readItems (isFirst : Bool) : Nat → List Token → Option (List Value × List Token)
  | 0, _ => none
  | fuel + 1, tokens =>
    match tokens with
    | .closeSequence :: rest => some ([], rest)
    | _ =>
      match isFirst, tokens with
      | false, .comma :: .closeSequence :: rest => some ([], rest)
      | false, .comma :: rest => readItemsFrom fuel rest
      | false, _ => none
      | true, _ => readItemsFrom fuel tokens

/-- Reads an item of a flow sequence and those after it. -/
def readItemsFrom : Nat → List Token → Option (List Value × List Token)
  | 0, _ => none
  | fuel + 1, tokens =>
    let item := match tokens with
      | .key :: rest =>
        match readNodeBefore [.value, .comma, .closeSequence] false false fuel rest with
        | some (.scalar key, rest) =>
          (readValue [.comma, .closeSequence] false fuel rest).map fun (value, rest) =>
            (.mapping [(key, value)], rest)
        | _ => none
      | _ => readNode false false fuel tokens
    match item with
    | none => none
    | some (item, rest) =>
      (readItems false fuel rest).map fun (items, rest) => (item :: items, rest)

/-- Reads the entries of a flow mapping up to its end; a comma stands before each
    but the first. -/
def readEntries (isFirst : Bool) : Nat → List Token → Option (List (Scalar × Value) × List Token)
  | 0, _ => none
  | fuel + 1, tokens =>
    match tokens with
    | .closeMapping :: rest => some ([], rest)
    | _ =>
      match isFirst, tokens with
      | false, .comma :: .closeMapping :: rest => some ([], rest)
      | false, .comma :: rest => readEntriesFrom fuel rest
      | false, _ => none
      | true, _ => readEntriesFrom fuel tokens

/-- Reads an entry of a flow mapping and those after it. -/
def readEntriesFrom : Nat → List Token → Option (List (Scalar × Value) × List Token)
  | 0, _ => none
  | fuel + 1, tokens =>
    let entry := match tokens with
      | .key :: rest =>
        match readNodeBefore [.value, .comma, .closeMapping] false false fuel rest with
        | some (.scalar key, rest) =>
          (readValue [.comma, .closeMapping] false fuel rest).map fun (value, rest) =>
            ((key, value), rest)
        | _ => none
      -- A node that is no key is one with a missing value.
      | _ =>
        match readNode false false fuel tokens with
        | some (.scalar key, rest) => some ((key, .scalar .missing), rest)
        | _ => none
    match entry with
    | none => none
    | some (entry, rest) =>
      (readEntries false fuel rest).map fun (entries, rest) => (entry :: entries, rest)

/-- Reads the items of a block sequence, each after its dash. -/
def readBlockItems : Nat → List Token → Option (List Value × List Token)
  | 0, _ => none
  | fuel + 1, tokens =>
    match tokens with
    | .dash :: rest =>
      match readNodeBefore [.dash, .key, .value, .endBlock] true false fuel rest with
      | none => none
      | some (item, rest) =>
        (readBlockItems fuel rest).map fun (items, rest) => (item :: items, rest)
    | _ => some ([], tokens)

/-- Reads the entries of a block mapping up to its end. -/
def readBlockEntries : Nat → List Token → Option (List (Scalar × Value) × List Token)
  | 0, _ => none
  | fuel + 1, tokens =>
    match tokens with
    | .endBlock :: rest => some ([], rest)
    | .key :: rest =>
      match readNodeBefore [.key, .value, .endBlock] true true fuel rest with
      | some (.scalar key, rest) =>
        match readValue [.key, .value, .endBlock] true fuel rest with
        | none => none
        | some (value, rest) =>
          (readBlockEntries fuel rest).map fun (entries, rest) => ((key, value) :: entries, rest)
      | _ => none
    | _ => none

end

/-! ## Documents -/

/-- Reads the only document of a text from the tokens of the text.  Every level of
    the reading takes a token or is one of at most four for a token. -/
def readDocument (tokens : List Token) : Option Value :=
  let fuel := 4 * tokens.length + 4
  let content : Option (Value × List Token) := match tokens with
    | [] => some (.scalar .missing, [])
    | .documentStart :: rest =>
      match rest with
      | [] | .documentStart :: _ | .documentEnd :: _ => some (.scalar .missing, rest)
      | _ => readNode true false fuel rest
    | _ => readNode true false fuel tokens
  match content with
  | some (value, rest) => if rest.all (· = .documentEnd) then some value else none
  | none => none

/-- Reads a text that is one document in YAML notation. -/
def read (s : Text) : Option Value := (tokens? s).bind readDocument

end StoryTemplate.Yaml
