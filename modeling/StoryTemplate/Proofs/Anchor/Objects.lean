import StoryTemplate.Proofs.Anchor.Cuts

/-! # Objects — what resolving finds

    Resolving counts the characters before each placeholder.  For a text that was
    marked once the result can be read off the outline: an object for every
    anchor, at the place where its payload begins.

    Main facts: `foldl_locate_cut` (the positions of the placeholders of an
    outline) and `resolve_addTo` (the text and the objects of an outline). -/

namespace StoryTemplate

namespace AnchoredObject

/-- The object with more characters in front of the text. -/
def later (n : Nat) (object : AnchoredObject) : AnchoredObject :=
  { object with position := object.position + n }

theorem later_later (m n : Nat) : later m ∘ later n = later (n + m) := by
  funext object
  show later m (later n object) = later (n + m) object
  rw [later, later, later, Nat.add_assoc]

theorem later_zero : later 0 = id := rfl

end AnchoredObject

namespace Outline

/-- The objects of an outline that begins at a position. -/
def objects (position : Nat) : Outline → List AnchoredObject
  | .nil => []
  | .text content rest => rest.objects (position + content.length)
  | .anchor params payload rest =>
      ⟨payload.content, position, params⟩ ::
        (payload.objects position ++ rest.objects (position + payload.content.length))

theorem length_objects (o : Outline) (position : Nat) : (o.objects position).length = o.count := by
  induction o generalizing position with
  | nil => rfl
  | text content rest ih => exact ih _
  | anchor params payload rest ihp ihr =>
      rw [objects, List.length_cons, List.length_append, ihp, ihr, count]

/-- The objects of an outline that begins further on. -/
theorem objects_add (o : Outline) (position n : Nat) :
    o.objects (position + n) = (o.objects position).map (AnchoredObject.later n) := by
  induction o generalizing position with
  | nil => rfl
  | text content rest ih =>
      rw [objects, objects, Nat.add_right_comm, ih]
  | anchor params payload rest ihp ihr =>
      rw [objects, objects, Nat.add_right_comm, ihp, ihr, List.map_cons, List.map_append]
      rfl

/-- An entry and a position make an object. -/
theorem zipWith_entries (o : Outline) (position : Nat) :
    List.zipWith (fun entry position => ⟨entry.text, position, entry.params⟩) o.entries
      ((o.objects position).map AnchoredObject.position) = o.objects position := by
  induction o generalizing position with
  | nil => rfl
  | text content rest ih => exact ih _
  | anchor params payload rest ihp ihr =>
      rw [entries, objects, List.map_cons, List.zipWith_cons_cons, List.map_append,
        List.zipWith_append (by rw [length_entries, List.length_map, length_objects]), ihp, ihr]

end Outline

namespace Marking

/-! ## Counting -/

theorem foldl_locate_textSegment (s : Text) (position : Nat) (found : Array Nat) :
    (Cut.textSegment s).foldl locate (position, found) = (position + s.length, found) := by
  rw [Cut.textSegment]
  by_cases hs : s = []
  · rw [if_pos hs, hs]
    rfl
  · rw [if_neg hs]
    rfl

theorem foldl_locate_prepend (s : Text) (c : Cut) (position : Nat) (found : Array Nat) :
    (c.prepend s).segments.foldl locate (position, found) =
      c.segments.foldl locate (position + s.length, found) := by
  cases c with
  | last content =>
      rw [Cut.prepend, Cut.segments, Cut.segments, foldl_locate_textSegment,
        foldl_locate_textSegment, List.length_append, Nat.add_assoc]
  | cut content slot rest =>
      rw [Cut.prepend, Cut.segments, Cut.segments, List.foldl_append, List.foldl_append,
        foldl_locate_textSegment, foldl_locate_textSegment, List.length_append, Nat.add_assoc]

theorem foldl_locate_append (a b : Cut) (place : Nat × Array Nat) :
    (a.append b).segments.foldl locate place =
      b.segments.foldl locate (a.segments.foldl locate place) := by
  induction a generalizing place with
  | last content =>
      obtain ⟨position, found⟩ := place
      rw [Cut.append, foldl_locate_prepend, Cut.segments, foldl_locate_textSegment]
  | cut content slot rest ih =>
      rw [Cut.append, Cut.segments, Cut.segments, List.foldl_append, List.foldl_append,
        List.foldl_cons, List.foldl_cons, ih]

/-- Among the places for all entries those of an outline are filled in, each with
    the position of its object. -/
theorem foldl_locate_cut (o : Outline) (position : Nat) (before after : List Nat) :
    (o.cut before.length).segments.foldl locate
        (position, (before ++ (List.replicate o.count 0 ++ after)).toArray) =
      (position + o.content.length,
        (before ++ ((o.objects position).map AnchoredObject.position ++ after)).toArray) := by
  induction o generalizing position before after with
  | nil => rfl
  | text content rest ih =>
      rw [Outline.cut, foldl_locate_prepend, Outline.count, ih, Outline.objects, Outline.content,
        List.length_append, Nat.add_assoc]
  | anchor params payload rest ihp ihr =>
      have hset : (before ++ (List.replicate (payload.count + rest.count + 1) 0 ++
          after)).toArray.setIfInBounds before.length position =
          ((before ++ [position]) ++ (List.replicate payload.count 0 ++
            (List.replicate rest.count 0 ++ after))).toArray := by
        rw [List.setIfInBounds_toArray, List.set_append_right _ _ (Nat.le_refl _), Nat.sub_self,
          List.replicate_succ, List.cons_append, List.set_cons_zero, List.append_assoc,
          ← List.replicate_append_replicate, List.append_assoc]
        rfl
      have hlen : before.length + 1 = (before ++ [position]).length := by simp
      have hlen' : before.length + 1 + payload.count = ((before ++ [position]) ++
          (payload.objects position).map AnchoredObject.position).length := by
        rw [List.length_append, List.length_map, Outline.length_objects, ← hlen]
      rw [Outline.cut, Cut.segments, List.foldl_append, foldl_locate_textSegment, List.foldl_cons,
        foldl_locate_append, locate, Outline.count]
      dsimp only
      rw [List.length_nil, Nat.add_zero, hset, hlen', hlen, ihp, ← List.append_assoc, ihr,
        Outline.content, Outline.objects, List.length_append, Nat.add_assoc, List.map_cons,
        List.map_append]
      simp only [List.append_assoc, List.cons_append, List.nil_append]

/-- Resolving what an outline has added to nothing gives its text and objects. -/
theorem resolve_addTo (o : Outline) :
    (o.addTo ⟨#[], #[]⟩).resolve = (o.content, o.objects 0) := by
  obtain ⟨hsegments, htable⟩ := o.addTo_nothing
  have hplaces : (Array.replicate (o.addTo ⟨#[], #[]⟩).table.size 0) =
      ([] ++ (List.replicate o.count 0 ++ [])).toArray := by
    rw [o.size_table_addTo, List.append_nil, List.nil_append, List.toArray_replicate]
  have hpositions := foldl_locate_cut o 0 [] []
  rw [resolve, positions, ← Array.foldl_toList, hsegments, htable, Cut.segments_content,
    Outline.cut_content, hplaces]
  show (_, List.zipWith _ o.entries ((o.cut ([] : List Nat).length).segments.foldl locate
    (0, _)).2.toList) = _
  rw [hpositions, List.nil_append, List.append_nil, o.zipWith_entries]

end Marking
end StoryTemplate
