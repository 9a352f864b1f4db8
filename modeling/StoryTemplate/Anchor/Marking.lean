import StoryTemplate.Anchor.Expression
import StoryTemplate.Rendered

/-! # Marking — taking the anchors out of a text

    Anchors are taken out in two phases.  Marking replaces every anchor by a
    placeholder for its entry in a table, followed by the bare payload, and so
    also the anchors in the payload, in the order in which they begin.
    Resolving drops the placeholders, and each entry learns how many characters
    stand before its own.

    A placeholder is no text, so nothing in a template can be mistaken for one.

    Main fact: `weight_step_lt` (every step of a marking leaves less work, so
    marking ends). -/

namespace StoryTemplate

/-- A piece of a marked text. -/
inductive Segment
  | text (content : Text)
  /-- Where the payload of the table entry with the number begins. -/
  | placeholder (slot : Nat)
  deriving DecidableEq, Repr

/-- The text of a segment; a placeholder has none. -/
def Segment.content : Segment → Text
  | .text content => content
  | .placeholder _ => []

/-- What is known of an anchor that was taken out. -/
structure AnchorEntry where
  text : Text
  params : Dict Text
  deriving DecidableEq

/-- A text with the anchors found in it so far taken out. -/
structure Marking where
  segments : Array Segment
  table : Array AnchorEntry
  deriving DecidableEq

/-- What remains to be done while one text is marked. -/
inductive MarkStep
  /-- Copy the span and mark the anchors in it. -/
  | scan (span : Span)
  /-- The payload of the entry is copied: it is the text from the segment
      with the number `first` on. -/
  | close (slot first : Nat)
  deriving DecidableEq, Repr

namespace Marking

/-- A text of which nothing is marked yet. -/
def ofText (s : Text) : Marking := ⟨#[.text s], #[]⟩

/-! ## Segments -/

/-- Adds text at the end, to the last segment if that is text. -/
def pushText (marking : Marking) (s : Text) : Marking :=
  if s = [] then marking
  else match marking.segments.back? with
    | some (.text last) =>
      { marking with segments := marking.segments.pop.push (.text (last ++ s)) }
    | _ => { marking with segments := marking.segments.push (.text s) }

/-- Adds an entry to the table, with its placeholder at the end of the text. -/
def pushAnchor (marking : Marking) (params : Dict Text) : Marking :=
  ⟨marking.segments.push (.placeholder marking.table.size), marking.table.push ⟨[], params⟩⟩

/-- The text of the segments from the number `first` on. -/
def textFrom (marking : Marking) (first : Nat) : Text :=
  (marking.segments.extract first marking.segments.size).toList.flatMap Segment.content

/-- Gives the entry the text of the segments from the number `first` on. -/
def closeAnchor (marking : Marking) (slot first : Nat) : Marking :=
  { marking with
    table := marking.table.modify slot fun entry => { entry with text := marking.textFrom first } }

/-! ## Marking one text -/

/-- Does what comes first of the work; there is no next state if none is left. -/
def step (src : Source) (braces : BraceMap) (marking : Marking) :
    List MarkStep → Option (Marking × List MarkStep)
  | [] => none
  | .close slot first :: work => some (marking.closeAnchor slot first, work)
  | .scan span :: work =>
    let opened := span.find (Anchor.opensAt src span.stop)
    if opened < span.stop then
      match Anchor.parse? src braces opened with
      | some (anchor, close) =>
        -- The entry is the next of the table, and its text begins after its placeholder.
        let marked := (marking.pushText (Span.text ⟨span.start, opened⟩ src)).pushAnchor anchor.params
        some (marked, .scan anchor.payload :: .close marking.table.size marked.segments.size ::
          .scan ⟨close + 1, span.stop⟩ :: work)
      | none =>
        some (marking.pushText (Span.text ⟨span.start, opened + 1⟩ src),
          .scan ⟨opened + 1, span.stop⟩ :: work)
    else some (marking.pushText (span.text src), work)

/-- The work that steps on a text of `size` characters still hold.  The payload
    and the text after an anchor begin after its brace, so the brace outweighs
    the three steps that take its place. -/
def weightOf (size : Nat) : List MarkStep → Nat
  | [] => 0
  | .scan span :: work => workFrom 4 size span.start + weightOf size work
  | .close _ _ :: work => 1 + weightOf size work

/-- Every step leaves less work. -/
theorem weight_step_lt {src : Source} {braces : BraceMap} {marking marked : Marking}
    {work rest : List MarkStep} (h : step src braces marking work = some (marked, rest)) :
    weightOf src.size rest < weightOf src.size work := by
  unfold step at h
  split at h
  · simp at h
  · simp only [Option.some.injEq, Prod.mk.injEq] at h
    obtain ⟨_, rfl⟩ := h
    simp only [weightOf]
    omega
  · rename_i span others
    have hpos := workFrom_pos (show 0 < 4 by decide) src.size span.start
    simp only at h
    split at h
    · rename_i hopen
      have hat := Span.holds_at_find hopen
      simp only [Anchor.opensAt, Bool.and_eq_true] at hat
      have hsize := Source.lt_size_of_isAt hat.1.1
      have hstart := span.start_le_find (Anchor.opensAt src span.stop)
      have later : ∀ {pos : Nat}, span.find (Anchor.opensAt src span.stop) < pos →
          4 * workFrom 4 src.size pos ≤ workFrom 4 src.size span.start :=
        fun hpos => mul_workFrom_le (by decide) (by omega) (by omega)
      split at h
      · rename_i anchor close hparse
        simp only [Option.some.injEq, Prod.mk.injEq] at h
        obtain ⟨_, rfl⟩ := h
        -- The payload, its end and the text after the anchor take the place of the span.
        have h₁ := later (Anchor.lt_of_parse hparse).2
        have h₂ := later (Nat.lt_succ_of_lt (Anchor.lt_of_parse hparse).1)
        have h₃ := workFrom_pos (show 0 < 4 by decide) src.size anchor.payload.start
        simp only [weightOf, Nat.succ_eq_add_one] at *
        omega
      · simp only [Option.some.injEq, Prod.mk.injEq] at h
        obtain ⟨_, rfl⟩ := h
        have h₁ := later (Nat.lt_succ_self _)
        have h₂ := workFrom_pos (show 0 < 4 by decide) src.size
          (span.find (Anchor.opensAt src span.stop) + 1)
        simp only [weightOf, Nat.succ_eq_add_one] at *
        omega
    · simp only [Option.some.injEq, Prod.mk.injEq] at h
      obtain ⟨_, rfl⟩ := h
      simp only [weightOf]
      omega

/-- Does all the work. -/
def run (src : Source) (braces : BraceMap) (marking : Marking) (work : List MarkStep) : Marking :=
  match _h : step src braces marking work with
  | none => marking
  | some (marked, rest) => run src braces marked rest
termination_by weightOf src.size work
decreasing_by exact weight_step_lt _h

/-- Adds the text at the end with its anchors marked. -/
def markText (marking : Marking) (s : Text) : Marking :=
  run s.toArray (BraceMap.ofText s) marking [.scan ⟨0, s.length⟩]

/-! ## Marking and resolving -/

/-- Adds a segment at the end, with the anchors of its text marked. -/
def markSegment (marking : Marking) : Segment → Marking
  | .text content => marking.markText content
  | .placeholder slot => { marking with segments := marking.segments.push (.placeholder slot) }

/-- Marks every anchor in the text that is left, and tells how many there were. -/
def mark (marking : Marking) : Marking × Nat :=
  let marked := marking.segments.foldl markSegment ⟨#[], marking.table⟩
  (marked, marked.table.size - marking.table.size)

/-- Moves past a segment: counts its characters, or records how many came before
    a placeholder. -/
def locate (place : Nat × Array Nat) : Segment → Nat × Array Nat
  | .text content => (place.1 + content.length, place.2)
  | .placeholder slot => (place.1, place.2.setIfInBounds slot place.1)

/-- For every entry of the table the number of characters before its placeholder. -/
def positions (marking : Marking) : Array Nat :=
  (marking.segments.foldl locate (0, Array.replicate marking.table.size 0)).2

/-- The text without the placeholders, and the anchored objects in the order of
    the table. -/
def resolve (marking : Marking) : Text × List AnchoredObject :=
  (marking.segments.toList.flatMap Segment.content,
   List.zipWith (fun entry position => ⟨entry.text, position, entry.params⟩)
     marking.table.toList marking.positions.toList)

end Marking
end StoryTemplate
