import Mathlib.Logic.Function.Iterate
import StoryTemplate.Proofs.Anchor.Objects
import StoryTemplate.Proofs.Braces.Groups

/-! # Settled — one marking leaves nothing to mark

    Marking scans each text once, and text that it joins from the two sides of
    the end of an anchor is never looked at again.  No anchor is missed by
    that: a payload leaves no group open, so no group reaches over the seam.

    Main facts: `cut_outline_lacks` (no part of a marked text holds a group that
    the text did not hold as an anchor), `outline_count_eq_zero_iff` (nothing is found
    exactly if there is nothing) and `mark_mark` (a second marking finds nothing and
    changes nothing). -/

namespace StoryTemplate

namespace Cut

/-- Whether all texts between the placeholders have a property. -/
def All (p : Text → Prop) : Cut → Prop
  | .last content => p content
  | .cut content _ rest => p content ∧ rest.All p

/-- The text before the first placeholder. -/
def first : Cut → Text
  | .last content => content
  | .cut content _ _ => content

/-- The text after the last placeholder. -/
def final : Cut → Text
  | .last content => content
  | .cut _ _ rest => rest.final

variable {p : Text → Prop} {a b c : Cut} {s : Text}

theorem All.first (h : c.All p) : p c.first := by
  cases c with
  | last content => exact h
  | cut content slot rest => exact h.1

theorem All.final (h : c.All p) : p c.final := by
  induction c with
  | last content => exact h
  | cut content slot rest ih => exact ih h.2

theorem All.prepend (h : c.All p) (hs : p (s ++ c.first)) : (c.prepend s).All p := by
  cases c with
  | last content => exact hs
  | cut content slot rest => exact ⟨hs, h.2⟩

/-- The texts of two cut texts, and the one at the seam. -/
theorem All.append (ha : a.All p) (hb : b.All p) (hseam : p (a.final ++ b.first)) :
    (a.append b).All p := by
  induction a with
  | last content => exact hb.prepend hseam
  | cut content slot rest ih => exact ⟨ha.1, ih ha.2 hseam⟩

theorem prepend_first (s : Text) (c : Cut) : (c.prepend s).first = s ++ c.first := by
  cases c with
  | last content => rfl
  | cut content slot rest => rfl

theorem prepend_final (s : Text) (c : Cut) :
    (c.prepend s).final = c.final ∨ ∃ content, c = .last content ∧
      (c.prepend s).final = s ++ content := by
  cases c with
  | last content => exact .inr ⟨content, rfl, rfl⟩
  | cut content slot rest => exact .inl rfl

theorem append_final (a b : Cut) : (a.append b).final = b.final ∨
    ∃ content, b = .last content ∧ (a.append b).final = a.final ++ content := by
  induction a with
  | last content => exact prepend_final content b
  | cut content slot rest ih => exact ih

end Cut

/-! ## The parts of a marked text -/

/-- The text before the first anchor begins the text. -/
theorem cut_outline_first (t : Text) (slot : Nat) : ((outline t).cut slot).first <+: t := by
  induction t using outline_induction generalizing slot with
  | plain t hopen => exact ⟨[], by rw [List.append_nil]; exact List.append_nil t⟩
  | literal before r hopen hnone ih =>
      obtain ⟨v, hv⟩ := ih slot
      refine ⟨v, ?_⟩
      rw [Outline.cut, Cut.prepend_first, List.append_assoc, hv, List.append_assoc]
      rfl
  | anchor before r after hopen hr hacc ihp ihr =>
      rw [Outline.cut, Cut.prepend_first, Outline.cut]
      exact ⟨_, List.append_assoc _ _ _⟩

/-- Without an anchor nothing is taken out. -/
theorem eq_of_cut_outline {t content : Text} {slot : Nat}
    (h : (outline t).cut slot = .last content) : content = t := by
  induction t using outline_induction generalizing content slot with
  | plain t hopen =>
      rw [Outline.cut, Outline.cut, Cut.prepend, Cut.last.injEq, List.append_nil] at h
      exact h.symm
  | literal before r hopen hnone ih =>
      rw [Outline.cut] at h
      generalize hc : (outline ('<' :: r)).cut slot = c at h
      cases c with
      | last rest =>
          rw [Cut.prepend, Cut.last.injEq, ih hc, List.append_assoc] at h
          exact h.symm
      | cut s slot' rest => cases h
  | anchor before r after hopen hr hacc ihp ihr => cases h

/-- A closed text has no open group after the last anchor. -/
theorem cut_outline_final {t : Text} (h : Closed t) (slot : Nat) :
    Closed ((outline t).cut slot).final := by
  induction t using outline_induction generalizing slot with
  | plain t hopen =>
      rw [Outline.cut, Outline.cut, Cut.prepend, Cut.final, List.append_nil]
      exact h
  | literal before r hopen hnone ih =>
      have hrest : Closed ('<' :: r) := Closed.of_append (s := before ++ ['\x7b']) (by simpa using h)
      rw [Outline.cut]
      rcases Cut.prepend_final (before ++ ['\x7b']) ((outline ('<' :: r)).cut slot) with
        heq | ⟨content, hlast, heq⟩
      · rw [heq]
        exact ih hrest slot
      · rw [heq, eq_of_cut_outline hlast, List.append_assoc]
        exact h
  | anchor before r after hopen hr hacc ihp ihr =>
      have hafter : Closed after :=
        Closed.of_append (s := before ++ '\x7b' :: '<' :: (r ++ ['\x7d'])) (by simpa using h)
      rw [Outline.cut, Outline.cut, Cut.prepend, Cut.final]
      rcases Cut.append_final ((outline (Anchor.payloadText r)).cut (slot + 1))
        ((outline after).cut (slot + 1 + (outline (Anchor.payloadText r)).count)) with
        heq | ⟨content, hlast, heq⟩
      · rw [heq]
        exact ihr hafter _
      · rw [heq, eq_of_cut_outline hlast]
        exact (ihp (Anchor.payloadText_balanced hr).closed _).append hafter

variable {p : Text → Prop}

/-- A group that can only be an anchor does not open before the first place where
    an anchor may open. -/
theorem anchorOpen_le_of_group {t before body after : Text}
    (h : Lacks (fun body => p body ∧ ¬ Anchor.IsBody body) t)
    (heq : t = before ++ '\x7b' :: (body ++ '\x7d' :: after)) (hbody : Balanced body)
    (hp : p body) : Anchor.IsBody body ∧ anchorOpen t ≤ before.length := by
  have hanchor : Anchor.IsBody body :=
    Classical.byContradiction fun hno => h before body after heq hbody ⟨hp, hno⟩
  refine ⟨hanchor, ?_⟩
  obtain ⟨r, rfl, -⟩ := hanchor
  exact anchorOpen_le_of_eq heq

theorem lacks_of_anchorOpen {t before : Text} (hopen : anchorOpen t = before.length)
    (hbefore : before <+: t) (h : Lacks (fun body => p body ∧ ¬ Anchor.IsBody body) t) :
    Lacks p before := by
  intro b body a heq hbody hp
  obtain ⟨v, hv⟩ := hbefore
  have ht : t = b ++ '\x7b' :: (body ++ '\x7d' :: (a ++ v)) := by
    rw [← hv, heq]
    simp
  have hle := (anchorOpen_le_of_group h ht hbody hp).2
  have hlen := congrArg List.length heq
  rw [List.length_append, List.length_cons] at hlen
  omega

/-- An opening that is no anchor, and the beginning of the text after it. -/
theorem lacks_of_literal {before r first : Text}
    (hopen : anchorOpen (before ++ '\x7b' :: '<' :: r) = before.length)
    (hnone : ∀ body after, '<' :: r = body ++ '\x7d' :: after → Balanced body →
      ¬ Anchor.IsBody body)
    (h : Lacks (fun body => p body ∧ ¬ Anchor.IsBody body) (before ++ '\x7b' :: '<' :: r))
    (hfirst : first <+: '<' :: r) (hlacks : Lacks p first) :
    Lacks p (before ++ ['\x7b'] ++ first) := by
  intro b body a heq hbody hp
  obtain ⟨v, hv⟩ := hfirst
  have ht : before ++ '\x7b' :: '<' :: r = b ++ '\x7b' :: (body ++ '\x7d' :: (a ++ v)) := by
    have hlong := congrArg (· ++ v) heq
    simpa [hv] using hlong
  obtain ⟨hanchor, hle⟩ := anchorOpen_le_of_group h ht hbody hp
  rw [hopen] at hle
  rcases Nat.lt_or_eq_of_le hle with hlt | heq'
  · -- The group opens in the text after the opening.
    obtain ⟨w, -, hw⟩ := exists_of_append_eq heq (by rw [List.length_append]; exact hlt)
    exact hlacks w body a hw hbody hp
  · -- The group is the one that opens there.
    obtain ⟨-, hrest⟩ := List.append_inj ht heq'
    exact hnone body (a ++ v) (List.cons.inj hrest).2 hbody hanchor

/-- No part of a marked text holds a group of some form, unless the text held it
    as an anchor. -/
theorem cut_outline_lacks {t : Text}
    (h : Lacks (fun body => p body ∧ ¬ Anchor.IsBody body) t) (slot : Nat) :
    ((outline t).cut slot).All (Lacks p) := by
  induction t using outline_induction generalizing slot with
  | plain t hopen =>
      rw [Outline.cut, Outline.cut, Cut.prepend, Cut.All, List.append_nil]
      exact lacks_of_anchorOpen (Nat.le_antisymm (anchorOpen_le t) (Nat.le_of_not_lt hopen))
        (List.prefix_refl t) h
  | literal before r hopen hnone ih =>
      have hrest := ih (h.of_infix ⟨before ++ ['\x7b'], [], by simp⟩) slot
      rw [Outline.cut]
      exact hrest.prepend (lacks_of_literal hopen hnone h (cut_outline_first _ _) hrest.first)
  | anchor before r after hopen hr hacc ihp ihr =>
      have hpart : Anchor.payloadText r <:+: before ++ '\x7b' :: '<' :: (r ++ '\x7d' :: after) :=
        (Anchor.payloadText_infix r).trans ⟨before ++ ['\x7b', '<'], '\x7d' :: after, by simp⟩
      have hpayload := ihp (h.of_infix hpart) (slot + 1)
      have hafter := ihr (h.of_infix ⟨before ++ '\x7b' :: '<' :: (r ++ ['\x7d']), [], by simp⟩)
        (slot + 1 + (outline (Anchor.payloadText r)).count)
      rw [Outline.cut, Outline.cut, Cut.prepend, Cut.All, List.append_nil]
      refine ⟨lacks_of_anchorOpen hopen (List.prefix_append _ _) h, hpayload.append hafter ?_⟩
      -- The payload is closed, so no group reaches over the seam.
      exact .append (cut_outline_final (Anchor.payloadText_balanced hr).closed _)
        hpayload.final hafter.first

/-- No part of a marked text holds an anchor. -/
theorem cut_outline_lacks_anchor (t : Text) (slot : Nat) :
    ((outline t).cut slot).All (Lacks Anchor.IsBody) :=
  cut_outline_lacks (lacks_both Anchor.IsBody t) slot

/-! ## Marking again -/

/-- A text without anchors is outlined as text. -/
theorem outline_of_lacks {t : Text} (h : Lacks Anchor.IsBody t) :
    (∀ slot, (outline t).cut slot = .last t) ∧ (outline t).entries = [] := by
  induction t using outline_induction with
  | plain t hopen => exact ⟨fun slot => by rw [Outline.cut, Outline.cut, Cut.prepend,
      List.append_nil], rfl⟩
  | literal before r hopen hnone ih =>
      obtain ⟨hcut, hentries⟩ := ih (h.of_infix ⟨before ++ ['\x7b'], [], by simp⟩)
      refine ⟨fun slot => ?_, hentries⟩
      rw [Outline.cut, hcut, Cut.prepend, List.append_assoc]
      rfl
  | anchor before r after hopen hr hacc ihp ihr =>
      exact absurd ⟨r, rfl, hacc⟩ (h before ('<' :: r) after rfl (.append (s := ['<']) (by decide) hr))

/-- An outline has no anchor exactly if the text has none. -/
theorem outline_count_eq_zero_iff {t : Text} : (outline t).count = 0 ↔ Lacks Anchor.IsBody t := by
  constructor
  · intro h
    induction t using outline_induction with
    | plain t hopen =>
        exact lacks_of_anchorOpen (Nat.le_antisymm (anchorOpen_le t) (Nat.le_of_not_lt hopen))
          (List.prefix_refl t) (lacks_both Anchor.IsBody t)
    | literal before r hopen hnone ih =>
        have hlacks := lacks_of_literal hopen hnone (lacks_both Anchor.IsBody _)
          (List.prefix_refl _) (ih h)
        rwa [List.append_assoc] at hlacks
    | anchor before r after hopen hr hacc ihp ihr =>
        exact absurd h (Nat.succ_ne_zero _)
  · intro h
    rw [← Outline.length_entries, (outline_of_lacks h).2]
    rfl

namespace Marking

theorem markText_of_lacks {s : Text} (h : Lacks Anchor.IsBody s) {marking : Marking}
    {done : Cut} (hdone : marking.segments.toList = done.segments) :
    (marking.markText s).segments.toList = (done.append (.last s)).segments ∧
      (marking.markText s).table = marking.table := by
  obtain ⟨hcut, hentries⟩ := outline_of_lacks h
  obtain ⟨hsegments, htable⟩ := (outline s).addTo_eq hdone
  rw [hcut] at hsegments
  rw [hentries, List.append_nil] at htable
  rw [markText_eq]
  exact ⟨hsegments, Array.ext' htable⟩

theorem foldl_markSegment_text {s : Text} (h : Lacks Anchor.IsBody s) {marking : Marking}
    {done : Cut} (hdone : marking.segments.toList = done.segments) :
    ((Cut.textSegment s).foldl markSegment marking).segments.toList =
        (done.append (.last s)).segments ∧
      ((Cut.textSegment s).foldl markSegment marking).table = marking.table := by
  rw [Cut.textSegment]
  by_cases hnil : s = []
  · rw [if_pos hnil, hnil, Cut.append_nil]
    exact ⟨hdone, rfl⟩
  · rw [if_neg hnil]
    exact markText_of_lacks h hdone

/-- Marking the segments of a cut text without anchors puts them down again. -/
theorem foldl_markSegment {c : Cut} (h : c.All (Lacks Anchor.IsBody)) {marking : Marking}
    {done : Cut} (hdone : marking.segments.toList = done.segments) :
    (c.segments.foldl markSegment marking).segments.toList = (done.append c).segments ∧
      (c.segments.foldl markSegment marking).table = marking.table := by
  induction c generalizing marking done with
  | last content => exact foldl_markSegment_text h hdone
  | cut content slot rest ih =>
      obtain ⟨hsegments, htable⟩ := foldl_markSegment_text h.1 hdone
      rw [Cut.segments, List.foldl_append, List.foldl_cons]
      generalize (Cut.textSegment content).foldl markSegment marking = next at hsegments htable ⊢
      have hplaced : (markSegment next (.placeholder slot)).segments.toList =
          ((done.append (.last content)).append (.cut [] slot (.last []))).segments := by
        rw [Cut.append_cut_segments, ← hsegments, markSegment, Array.toList_push]
        rfl
      obtain ⟨hrest, htable'⟩ := ih h.2 hplaced
      have hcut : ((done.append (.last content)).append (.cut [] slot (.last []))).append rest =
          done.append (.cut content slot rest) := by
        rw [Cut.append_assoc, Cut.append_assoc, Cut.append, Cut.append, Cut.append,
          Cut.prepend_nil, Cut.prepend, List.append_nil]
      rw [← hcut]
      exact ⟨hrest, htable'.trans htable⟩

/-- Marking a text once adds its outline to nothing. -/
theorem mark_ofText (t : Text) :
    (ofText t).mark = ((outline t).addTo ⟨#[], #[]⟩, (outline t).count) := by
  have hmarked : (ofText t).segments.foldl markSegment ⟨#[], (ofText t).table⟩ =
      (outline t).addTo ⟨#[], #[]⟩ := markText_eq ⟨#[], #[]⟩ t
  rw [mark, hmarked, Outline.size_table_addTo]
  rfl

/-- After one marking there is nothing left to mark, and nothing changes. -/
theorem mark_mark (t : Text) : (ofText t).mark.1.mark = ((ofText t).mark.1, 0) := by
  obtain ⟨hsegments, -⟩ := (outline t).addTo_nothing
  rw [mark_ofText]
  dsimp only
  generalize (outline t).addTo ⟨#[], #[]⟩ = marking at hsegments ⊢
  have hnothing : (Marking.mk #[] marking.table).segments.toList = (Cut.last []).segments := rfl
  obtain ⟨hsame, htable⟩ := foldl_markSegment (cut_outline_lacks_anchor t 0) hnothing
  rw [Cut.append, Cut.prepend_nil, ← hsegments, Array.foldl_toList] at hsame
  rw [← hsegments, Array.foldl_toList] at htable
  have hagain : marking.segments.foldl markSegment ⟨#[], marking.table⟩ = marking := by
    obtain ⟨segments, table⟩ := marking
    rw [mk.injEq]
    exact ⟨Array.ext' hsame, htable⟩
  rw [mark, hagain, Nat.sub_self]

/-- However often a text is marked, it comes to marking it once. -/
theorem mark_iterate (t : Text) (n : Nat) :
    (fun marking : Marking => marking.mark.1)^[n + 1] (ofText t) = (ofText t).mark.1 := by
  induction n with
  | zero => rfl
  | succ n ih => rw [Function.iterate_succ_apply', ih, mark_mark]

end Marking
end StoryTemplate
