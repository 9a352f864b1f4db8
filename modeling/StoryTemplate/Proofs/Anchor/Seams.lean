import StoryTemplate.Proofs.Anchor.Settled

/-! # Seams — where the final text was cut

    The final text is what stands between the placeholders, joined.  A group of
    it that reaches over no place where an anchor began is a group of one of the
    joined texts, and those hold no more anchors.

    Main facts: `Outline.places_cut` (the text is cut where the objects begin) and
    `exists_place` (a group that none of the texts holds has a place inside). -/

namespace StoryTemplate

namespace Cut

/-- Where the placeholders stand in the joined text, if it begins at a position. -/
def places (position : Nat) : Cut → List Nat
  | .last _ => []
  | .cut content _ rest =>
      (position + content.length) :: rest.places (position + content.length)

theorem prepend_places (s : Text) (c : Cut) (position : Nat) :
    (c.prepend s).places position = c.places (position + s.length) := by
  cases c with
  | last content => rfl
  | cut content slot rest => rw [prepend, places, places, List.length_append, Nat.add_assoc]

theorem append_places (a b : Cut) (position : Nat) :
    (a.append b).places position =
      a.places position ++ b.places (position + a.content.length) := by
  induction a generalizing position with
  | last content => exact prepend_places content b position
  | cut s slot rest ih =>
      rw [append, places, places, ih, content, List.length_append, Nat.add_assoc, List.cons_append]

/-- A group that none of the texts holds reaches over a place where the text is cut. -/
theorem exists_place {p : Text → Prop} {c : Cut} (h : c.All (Lacks p)) {before body after : Text}
    (heq : c.content = before ++ '\x7b' :: (body ++ '\x7d' :: after)) (hbody : Balanced body)
    (hp : p body) (position : Nat) : ∃ place ∈ c.places position,
      position + before.length < place ∧ place ≤ position + before.length + 1 + body.length := by
  induction c generalizing before position with
  | last content => exact absurd hp (h before body after heq hbody)
  | cut s slot rest ih =>
      rw [content] at heq
      by_cases hbefore : s.length ≤ before.length
      · -- The group stands after the first text.
        obtain ⟨w, rfl, hw⟩ := exists_of_append_eq heq hbefore
        obtain ⟨place, hplace, hlt, hle⟩ := ih h.2 hw (position + s.length)
        rw [List.length_append]
        exact ⟨place, .tail _ hplace, by omega, by omega⟩
      · by_cases hafter : s.length ≤ before.length + 1 + body.length
        · exact ⟨position + s.length, .head _, by omega, by omega⟩
        · -- The group stands in the first text.
          have hgroup : before ++ '\x7b' :: (body ++ ['\x7d']) ++ after = s ++ rest.content := by
            rw [heq]
            simp
          have hlen : (before ++ '\x7b' :: (body ++ ['\x7d'])).length ≤ s.length := by
            simp only [List.length_append, List.length_cons, List.length_nil]
            omega
          obtain ⟨w, rfl, -⟩ := exists_of_append_eq hgroup hlen
          exact absurd hp (h.1 before body w (by simp) hbody)

end Cut

/-- The text is cut where its objects begin. -/
theorem Outline.places_cut (o : Outline) (slot position : Nat) :
    (o.cut slot).places position = (o.objects position).map AnchoredObject.position := by
  induction o generalizing slot position with
  | nil => rfl
  | text content rest ih => rw [cut, Cut.prepend_places, ih, objects]
  | anchor params payload rest ihp ihr =>
      rw [cut, Cut.places, Cut.append_places, ihp, ihr, cut_content, objects, List.map_cons,
        List.map_append, List.length_nil, Nat.add_zero]

/-- A group of the final text that the marked text did not hold, unless as an anchor,
    has the beginning of an object inside. -/
theorem exists_object {p : Text → Prop} {t : Text}
    (h : Lacks (fun body => p body ∧ ¬ Anchor.IsBody body) t) {before body after : Text}
    (heq : (outline t).content = before ++ '\x7b' :: (body ++ '\x7d' :: after))
    (hbody : Balanced body) (hp : p body) : ∃ object ∈ (outline t).objects 0,
      before.length < object.position ∧ object.position ≤ before.length + 1 + body.length := by
  rw [← Outline.cut_content _ 0] at heq
  obtain ⟨place, hplace, hlt, hle⟩ := Cut.exists_place (cut_outline_lacks h 0) heq hbody hp 0
  rw [Outline.places_cut] at hplace
  obtain ⟨object, hobject, rfl⟩ := List.mem_map.1 hplace
  exact ⟨object, hobject, by omega, by omega⟩

end StoryTemplate
