import StoryTemplate.Proofs.Anchor.Outline

/-! # Cuts — a marked text between its placeholders

    A marking keeps its text in segments and merges neighbours as it goes.  What
    the segments amount to is a text that is cut by placeholders; a cut text is
    followed by another one by joining the texts at the seam.

    Main facts: `pushText_segments` (adding text joins it to the last part) and
    `addTo_eq` (an outline adds its cut text to the segments and its entries to
    the table). -/

namespace StoryTemplate

/-- A text cut by placeholders. -/
inductive Cut
  | last (content : Text)
  | cut (content : Text) (slot : Nat) (rest : Cut)

namespace Cut

/-- The text with more text in front. -/
def prepend (s : Text) : Cut → Cut
  | .last content => .last (s ++ content)
  | .cut content slot rest => .cut (s ++ content) slot rest

/-- One cut text after another. -/
def append : Cut → Cut → Cut
  | .last content, c => c.prepend content
  | .cut content slot rest, c => .cut content slot (rest.append c)

/-- The segment of a text; no text, no segment. -/
def textSegment (s : Text) : List Segment := if s = [] then [] else [.text s]

/-- The segments that a marking keeps for a cut text. -/
def segments : Cut → List Segment
  | .last content => textSegment content
  | .cut content slot rest => textSegment content ++ .placeholder slot :: rest.segments

/-- The text without the placeholders. -/
def content : Cut → Text
  | .last content => content
  | .cut content _ rest => content ++ rest.content

theorem prepend_prepend (s t : Text) (c : Cut) : (c.prepend t).prepend s = c.prepend (s ++ t) := by
  cases c with
  | last content => rw [prepend, prepend, prepend, List.append_assoc]
  | cut content slot rest => rw [prepend, prepend, prepend, List.append_assoc]

theorem prepend_append (s : Text) (a b : Cut) : (a.prepend s).append b = (a.append b).prepend s := by
  cases a with
  | last content => rw [prepend, append, append, prepend_prepend]
  | cut content slot rest => rfl

theorem append_assoc (a b c : Cut) : (a.append b).append c = a.append (b.append c) := by
  induction a with
  | last content => rw [append, append, prepend_append]
  | cut content slot rest ih => rw [append, append, append, ih]

theorem prepend_nil (c : Cut) : c.prepend [] = c := by
  cases c with
  | last content => rfl
  | cut content slot rest => rfl

theorem append_nil (c : Cut) : c.append (.last []) = c := by
  induction c with
  | last content => rw [append, prepend, List.append_nil]
  | cut content slot rest ih => rw [append, ih]

theorem prepend_content (s : Text) (c : Cut) : (c.prepend s).content = s ++ c.content := by
  cases c with
  | last content => rfl
  | cut content slot rest => exact List.append_assoc _ _ _

theorem append_content (a b : Cut) : (a.append b).content = a.content ++ b.content := by
  induction a with
  | last content => exact prepend_content content b
  | cut s slot rest ih =>
      rw [append, content, content, ih, List.append_assoc]

/-- A placeholder at the end starts a new part. -/
theorem append_cut_segments (a b : Cut) (slot : Nat) :
    (a.append (.cut [] slot b)).segments = a.segments ++ .placeholder slot :: b.segments := by
  induction a with
  | last content => rw [append, prepend, segments, segments, List.append_nil]
  | cut content slot' rest ih =>
      rw [append, segments, segments, ih, List.append_assoc, List.cons_append]

theorem segments_content (c : Cut) : c.segments.flatMap Segment.content = c.content := by
  have htext : ∀ s : Text, (textSegment s).flatMap Segment.content = s := by
    intro s
    rw [textSegment]
    by_cases hs : s = []
    · rw [if_pos hs, hs]
      rfl
    · rw [if_neg hs]
      exact List.append_nil s
  induction c with
  | last content => exact htext content
  | cut content slot rest ih =>
      rw [segments, List.flatMap_append, htext, List.flatMap_cons, ih]
      rfl

end Cut

/-! ## Segments of a marking -/

/-- Adds text to a list of segments, to the last one if that is text. -/
def pushSegment (segments : List Segment) (s : Text) : List Segment :=
  if s = [] then segments
  else match segments.getLast? with
    | some (.text last) => segments.dropLast ++ [.text (last ++ s)]
    | _ => segments ++ [.text s]

/-- What stands before a placeholder is not touched. -/
theorem pushSegment_append_placeholder (before after : List Segment) (slot : Nat) (s : Text) :
    pushSegment (before ++ .placeholder slot :: after) s =
      before ++ .placeholder slot :: pushSegment after s := by
  by_cases hs : s = []
  · rw [pushSegment, pushSegment, if_pos hs, if_pos hs]
  · rw [pushSegment, pushSegment, if_neg hs, if_neg hs]
    rcases List.eq_nil_or_concat after with rfl | ⟨init, x, rfl⟩
    · rw [List.getLast?_concat, List.getLast?_nil, List.append_assoc]
      rfl
    · rw [List.concat_eq_append, ← List.cons_append, ← List.append_assoc, List.getLast?_concat,
        List.getLast?_concat, List.dropLast_concat, List.dropLast_concat]
      cases x with
      | text last => simp
      | placeholder slot' => simp

/-- Adding text joins it to the last part. -/
theorem pushSegment_segments (c : Cut) (s : Text) :
    pushSegment c.segments s = (c.append (.last s)).segments := by
  induction c with
  | last content =>
      rw [Cut.append, Cut.prepend, Cut.segments, Cut.segments, pushSegment, Cut.textSegment,
        Cut.textSegment]
      by_cases hs : s = []
      · rw [if_pos hs, hs, List.append_nil]
      · rw [if_neg hs, if_neg fun h => hs (List.append_eq_nil_iff.1 h).2]
        by_cases hc : content = []
        · rw [hc, if_pos rfl]
          rfl
        · rw [if_neg hc]
          rfl
  | cut content slot rest ih =>
      rw [Cut.append, Cut.segments, Cut.segments, pushSegment_append_placeholder, ih]

/-- The entry after some others is changed alone. -/
theorem modify_after {α : Type} (f : α → α) (before after : List α) (x : α) :
    (before ++ x :: after).modify before.length f = before ++ f x :: after :=
  List.modifyTailIdx_add _ 0 before (x :: after)

namespace Marking

theorem pushText_toList (marking : Marking) (s : Text) :
    (marking.pushText s).segments.toList = pushSegment marking.segments.toList s := by
  rw [pushText, pushSegment, Array.getLast?_toList]
  by_cases hs : s = []
  · rw [if_pos hs, if_pos hs]
  · rw [if_neg hs, if_neg hs]
    cases marking.segments.back? with
    | none => simp
    | some x =>
        cases x with
        | text last => simp
        | placeholder slot => simp

/-- Adding text joins it to the last part. -/
theorem pushText_segments {marking : Marking} {c : Cut} (h : marking.segments.toList = c.segments)
    (s : Text) : (marking.pushText s).segments.toList = (c.append (.last s)).segments := by
  rw [pushText_toList, h, pushSegment_segments]

/-- A new placeholder starts a new part. -/
theorem pushAnchor_segments {marking : Marking} {c : Cut}
    (h : marking.segments.toList = c.segments) (params : Dict Text) :
    (marking.pushAnchor params).segments.toList =
      (c.append (.cut [] marking.table.size (.last []))).segments := by
  rw [Cut.append_cut_segments, ← h, pushAnchor, Array.toList_push]
  rfl

theorem pushAnchor_toList (marking : Marking) (params : Dict Text) :
    (marking.pushAnchor params).table.toList = marking.table.toList ++ [⟨[], params⟩] :=
  Array.toList_push

/-- The text from a segment on. -/
theorem textFrom_eq {marking : Marking} {before after : List Segment}
    (h : marking.segments.toList = before ++ after) :
    marking.textFrom before.length = after.flatMap Segment.content := by
  have hsize : marking.segments.size = before.length + after.length := by
    rw [← Array.length_toList, h, List.length_append]
  rw [textFrom, Array.toList_extract, List.extract_eq_take_drop, h, List.drop_left', hsize,
    Nat.add_sub_cancel_left, List.take_length]
  rfl

/-- The entry of a payload that is copied learns its text. -/
theorem closeAnchor_table {marking : Marking} {before after : List AnchorEntry}
    {entry : AnchorEntry} (h : marking.table.toList = before ++ entry :: after) (first : Nat) :
    (marking.closeAnchor before.length first).table.toList =
      before ++ { entry with text := marking.textFrom first } :: after := by
  rw [closeAnchor, Array.toList_modify, h, modify_after]

end Marking

/-! ## What an outline adds -/

namespace Outline

/-- The text without the anchors around it. -/
def content : Outline → Text
  | .nil => []
  | .text content rest => content ++ rest.content
  | .anchor _ payload rest => payload.content ++ rest.content

/-- The number of anchors. -/
def count : Outline → Nat
  | .nil => 0
  | .text _ rest => rest.count
  | .anchor _ payload rest => payload.count + rest.count + 1

/-- The text cut where the anchors begin; the anchors are numbered from `slot`
    on. -/
def cut (slot : Nat) : Outline → Cut
  | .nil => .last []
  | .text content rest => (rest.cut slot).prepend content
  | .anchor _ payload rest =>
      .cut [] slot ((payload.cut (slot + 1)).append (rest.cut (slot + 1 + payload.count)))

/-- The entries of the anchors, in the order in which they begin. -/
def entries : Outline → List AnchorEntry
  | .nil => []
  | .text _ rest => rest.entries
  | .anchor params payload rest => ⟨payload.content, params⟩ :: (payload.entries ++ rest.entries)

theorem length_entries (o : Outline) : o.entries.length = o.count := by
  induction o with
  | nil => rfl
  | text content rest ih => exact ih
  | anchor params payload rest ihp ihr =>
      rw [entries, List.length_cons, List.length_append, ihp, ihr, count]

theorem cut_content (o : Outline) (slot : Nat) : (o.cut slot).content = o.content := by
  induction o generalizing slot with
  | nil => rfl
  | text content rest ih => rw [cut, Cut.prepend_content, ih, Outline.content]
  | anchor params payload rest ihp ihr =>
      rw [cut, Cut.content, Cut.append_content, ihp, ihr, Outline.content, List.nil_append]

/-- What an outline adds to a marking: its text with the placeholders, and its
    entries. -/
theorem addTo_eq (o : Outline) {marking : Marking} {c : Cut}
    (h : marking.segments.toList = c.segments) :
    (o.addTo marking).segments.toList = (c.append (o.cut marking.table.size)).segments ∧
      (o.addTo marking).table.toList = marking.table.toList ++ o.entries := by
  induction o generalizing marking c with
  | nil => exact ⟨by rw [addTo, cut, Cut.append_nil, h], (List.append_nil _).symm⟩
  | text content rest ih =>
      obtain ⟨hsegments, htable⟩ := ih (Marking.pushText_segments h content)
      rw [addTo, cut, entries]
      rw [Marking.pushText_table] at hsegments htable
      refine ⟨?_, htable⟩
      rw [hsegments, Cut.append_assoc]
      rfl
  | anchor params payload rest ihp ihr =>
      have hmarked := Marking.pushAnchor_segments h params
      have hsize : (marking.pushAnchor params).segments.size =
          (c.segments ++ [Segment.placeholder marking.table.size]).length := by
        rw [← Array.length_toList, hmarked, Cut.append_cut_segments]
        rfl
      obtain ⟨hinner, htable⟩ := ihp hmarked
      have hslot : (marking.pushAnchor params).table.size = marking.table.size + 1 :=
        Array.size_push _
      have hentries : (payload.addTo (marking.pushAnchor params)).table.toList =
          marking.table.toList ++ ⟨[], params⟩ :: payload.entries := by
        rw [htable, Marking.pushAnchor_toList, List.append_assoc]
        rfl
      rw [hslot, Cut.append_assoc, Cut.append, Cut.append, Cut.prepend_nil] at hinner
      -- The text of the entry is what the payload has added after the placeholder.
      have hsplit := hinner
      rw [Cut.append_cut_segments, List.append_cons] at hsplit
      have htext := Marking.textFrom_eq hsplit
      rw [Cut.segments_content, cut_content] at htext
      have hclosed := Marking.closeAnchor_table hentries (marking.pushAnchor params).segments.size
      rw [hsize, htext, Array.length_toList] at hclosed
      rw [← hsize] at hclosed
      rw [addTo]
      generalize hm : (payload.addTo (marking.pushAnchor params)).closeAnchor marking.table.size
        (marking.pushAnchor params).segments.size = closed at hclosed ⊢
      have hsegments : closed.segments.toList =
          (c.append (.cut [] marking.table.size (payload.cut (marking.table.size + 1)))).segments := by
        rw [← hm]
        exact hinner
      have hcount : closed.table.size = marking.table.size + 1 + payload.count := by
        rw [← Array.length_toList, hclosed, List.length_append, List.length_cons, length_entries,
          Array.length_toList]
        omega
      obtain ⟨hrest, hall⟩ := ihr hsegments
      rw [hrest, hall, hclosed, hcount, cut, entries, Cut.append_assoc, Cut.append,
        List.append_assoc, List.cons_append]
      exact ⟨rfl, rfl⟩

/-- What an outline amounts to as a marking. -/
theorem addTo_nothing (o : Outline) : (o.addTo ⟨#[], #[]⟩).segments.toList = (o.cut 0).segments ∧
    (o.addTo ⟨#[], #[]⟩).table.toList = o.entries := by
  have hnothing : (Marking.mk #[] #[]).segments.toList = (Cut.last []).segments := rfl
  obtain ⟨hsegments, htable⟩ := o.addTo_eq hnothing
  rw [Cut.append, Cut.prepend_nil] at hsegments
  exact ⟨hsegments, htable⟩

theorem size_table_addTo (o : Outline) : (o.addTo ⟨#[], #[]⟩).table.size = o.count := by
  rw [← Array.length_toList, o.addTo_nothing.2, length_entries]

end Outline
end StoryTemplate
