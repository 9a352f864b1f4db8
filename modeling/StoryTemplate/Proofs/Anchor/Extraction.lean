import StoryTemplate.Proofs.Anchor.Settled
import StoryTemplate.Proofs.Text.Cuts

/-! # Extraction — anchors by recursion

    Marking works on one stack of steps over a whole text, and resolving counts over
    the segments that are left.  This file has the plain reading: a text is what stands
    before its first `\x7b<`, the anchor there, if one can be read, with its payload
    extracted as a text of its own, and the rest extracted likewise.

    The outline of a text is the same recursion with the positions left out, so it is
    enough to place its objects (`extracted_eq`).

    Main fact: `resolve_mark_iterate` (any number of markings, at least one, and then
    resolving are the recursion). -/

namespace StoryTemplate

open AnchoredObject

/-! ## The first opening -/

section Opening

variable {t before after : Text}

/-- A text is cut where an anchor may first open. -/
theorem anchorOpen_of_breakOn (h : breakOn ['\x7b', '<'] t = some (before, after)) :
    t = before ++ '\x7b' :: '<' :: after ∧ anchorOpen t = before.length := by
  have ht : t = before ++ '\x7b' :: '<' :: after := (breakOn_eq_some h).trans (by simp)
  have hle := anchorOpen_le_of_eq ht
  have hlt : anchorOpen t < t.length := by
    have hlen := congrArg List.length ht
    rw [List.length_append, List.length_cons] at hlen
    omega
  obtain ⟨before', r, ht', hlen⟩ := exists_of_anchorOpen_lt hlt
  have hcut : t = before' ++ ['\x7b', '<'] ++ r := ht'.trans (by simp)
  exact ⟨ht, Nat.le_antisymm hle (hlen ▸ length_le_of_breakOn h hcut)⟩

/-- In a text that is not cut no anchor may open. -/
theorem not_anchorOpen_lt_of_breakOn (h : breakOn ['\x7b', '<'] t = none) :
    ¬ anchorOpen t < t.length := by
  intro hlt
  obtain ⟨before, r, ht, -⟩ := exists_of_anchorOpen_lt hlt
  have hcut : t = before ++ ['\x7b', '<'] ++ r := ht.trans (by simp)
  exact breakOn_eq_none_iff.1 h ⟨before, r, hcut.symm⟩

theorem length_lt_of_breakOn (h : breakOn ['\x7b', '<'] t = some (before, after)) :
    before.length + 1 + after.length < t.length := by
  have hlen := congrArg List.length (anchorOpen_of_breakOn h).1
  simp only [List.length_append, List.length_cons] at hlen
  omega

end Opening

/-! ## The recursion -/

/-- What is left of a text without its anchors, and the objects in it.  The text stays
    up to the first opening; an opening that is no anchor is text; an anchor gives way to
    its payload, which is the object, and the payload and the text behind the anchor are
    texts of their own. -/
def extracted (t : Text) : Text × List AnchoredObject :=
  match _h : breakOn ['\x7b', '<'] t with
  | none => (t, [])
  | some (before, after) =>
      match _ha : Anchor.parse? t.toArray (.ofText t) before.length with
      | none =>
          let rest := extracted ('<' :: after)
          (before ++ '\x7b' :: rest.1, rest.2.map (later (before.length + 1)))
      | some (anchor, close) =>
          let payload := extracted (anchor.payload.text t.toArray)
          let rest := extracted (t.drop (close + 1))
          (before ++ (payload.1 ++ rest.1),
            ⟨payload.1, before.length, anchor.params⟩ :: (payload.2.map (later before.length) ++
              rest.2.map (later (before.length + payload.1.length))))
termination_by t.length
decreasing_by
  · have hlt := length_lt_of_breakOn _h
    rw [List.length_cons]
    omega
  · have hlt := length_lt_of_breakOn _h
    have hpayload := (Anchor.lt_of_parse _ha).2
    rw [Span.text, Array.length_toList, Array.size_extract, List.size_toArray]
    omega
  · have hlt := Anchor.lt_length_of_parse _ha
    rw [List.length_drop]
    omega

/-- The recursion gives the text of the outline and its objects. -/
theorem extracted_eq (t : Text) : extracted t = ((outline t).content, (outline t).objects 0) := by
  -- Each case of the recursion is one equation of the outline; only the places differ, which
  -- the outline counts from the beginning of the whole text.
  fun_induction extracted t with
  | case1 t hnone =>
      rw [outline_plain (not_anchorOpen_lt_of_breakOn hnone), Outline.content, Outline.content,
        List.append_nil]
      rfl
  | case2 t before after hcut hparse rest ih =>
      obtain ⟨rfl, hopen⟩ := anchorOpen_of_breakOn hcut
      rw [← hopen] at hparse
      rw [outline_literal (anchorOpen_lt hopen) hparse, hopen, List.take_length_add_append,
        List.drop_length_add_append]
      have hrest : rest = ((outline ('<' :: after)).content, (outline ('<' :: after)).objects 0) := ih
      rw [hrest, Outline.content, Outline.objects, Outline.objects_add, List.length_append,
        List.append_assoc]
      rfl
  | case3 t before after hcut anchor close hparse payload rest ihp ihr =>
      obtain ⟨ht, hopen⟩ := anchorOpen_of_breakOn hcut
      have htake : t.take (anchorOpen t) = before := by
        rw [hopen, ht, List.take_left]
      have hlt : anchorOpen t < t.length := by
        have := length_lt_of_breakOn hcut
        omega
      rw [← hopen] at hparse
      rw [outline_anchor hlt hparse, htake]
      have hpayload : payload = ((outline (anchor.payload.text t.toArray)).content,
        (outline (anchor.payload.text t.toArray)).objects 0) := ihp
      have hrest : rest = ((outline (t.drop (close + 1))).content,
        (outline (t.drop (close + 1))).objects 0) := ihr
      rw [hpayload, hrest, Outline.content, Outline.content, Outline.objects, Outline.objects,
        Outline.objects_add, Outline.objects_add, Outline.objects_add, List.map_map, later_later,
        Nat.zero_add]

namespace Marking

/-- However often a text is marked, if it is marked at all, resolving gives what the
    recursion gives. -/
theorem resolve_mark_iterate (t : Text) (n : Nat) :
    ((fun marking : Marking => marking.mark.1)^[n + 1] (.ofText t)).resolve = extracted t := by
  rw [mark_iterate, mark_ofText, resolve_addTo, extracted_eq]

end Marking

/-- An opening without parameters stays, and so does one that is not closed; the payload of
    the anchor between them holds another one. -/
example : extracted "\x7b< \x7b< k:v é \x7b<a:b x\x7d\x7d\x7d \x7b<".toList =
    ("\x7b< é x\x7d \x7b<".toList,
      [⟨"é x".toList, 3, .ofList [("k".toList, "v".toList)]⟩,
        ⟨"x".toList, 5, .ofList [("a".toList, "b".toList)]⟩]) := by
  decide +kernel

end StoryTemplate
