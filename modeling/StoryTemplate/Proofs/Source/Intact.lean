import StoryTemplate.Proofs.Source.Windows

/-! # Intact spans — no group straddles their end

    The passes over a text look for expressions with the pairs of the whole
    text, also within a branch or a payload.  That is sound because of the spans
    that they work on: every group that begins in such a span and has an end has
    it in the span.  This file has the invariant and the operations that keep
    it.

    Main facts: `Intact.ofText` (a whole text is intact), `Intact.inner` (and so
    is the text between two braces), `Intact.suffix`, `Intact.branch` and
    `Intact.part` (and what is cut out of an intact span). -/

namespace StoryTemplate

/-- The layout around a branch holds no braces. -/
theorem Balanced.branchText {s : Text} (h : Balanced s) : Balanced (branchText s) := by
  have hblank := balanced_of_noBrace (s := s.takeWhile isBlank)
    fun c hc => noBrace_of_isBlank (List.mem_takeWhile_imp hc)
  rw [← trimStart_append_eq s] at h
  have htrim := h.of_append_right hblank
  rw [StoryTemplate.branchText, dropLastSpace]
  by_cases hlast : (trimStart s).getLast? = some ' '
  · rw [if_pos hlast]
    obtain ⟨u, hu⟩ := List.getLast?_eq_some_iff.1 hlast
    rw [hu] at htrim ⊢
    rw [List.dropLast_concat]
    exact htrim.of_append_left (by decide)
  · rw [if_neg hlast]
    exact htrim

namespace Span

/-- The span lies in the source, and every group that begins in it and is ever
    closed is closed in it. -/
structure Intact (s : Span) (src : Source) : Prop where
  le : s.start ≤ s.stop
  size : s.stop ≤ src.size
  inside : ∀ o c, s.start ≤ o → o < s.stop → (BraceMap.ofText src.toList).close o = some c →
    c < s.stop

namespace Intact

variable {s : Span} {src : Source}

theorem shows_text (h : s.Intact src) : s.Shows src (s.text src) := .of_le h.le h.size

theorem ofText (s : Text) : (Span.mk 0 s.toArray.size).Intact s.toArray where
  le := Nat.zero_le _
  size := Nat.le_refl _
  inside := fun o c _ _ hc => by
    rw [List.size_toArray]
    exact BraceMap.close_lt_length hc

/-- A part of a closed text in which the groups that begin in it also end is closed. -/
theorem closed_text (h : s.Intact src) (hsrc : Closed src.toList) : Closed (s.text src) := by
  intro o ho
  obtain ⟨before, after, hshape, hstart, hstop⟩ := h.shows_text
  have hlt : o < (s.text src).length := (List.getElem?_eq_some_iff.1 ho).1
  have hopen : src.toList[before.length + o]? = some '\x7b' := by
    rw [hshape, List.getElem?_append_right (Nat.le_add_right _ _), Nat.add_sub_cancel_left,
      List.getElem?_append_left hlt, ho]
  obtain ⟨c, hc⟩ := hsrc _ hopen
  have hinside := h.inside _ c (by omega) (by omega) hc
  have hafter := BraceMap.lt_of_close hc
  obtain ⟨i, rfl⟩ := Nat.exists_eq_add_of_le (Nat.le_trans (Nat.le_add_right _ o) hafter.le)
  rw [hshape] at hc
  exact ⟨i, (BraceMap.close_infix before (s.text src) after o i).2 ⟨hc, by omega⟩⟩

/-- The end of an intact span is intact. -/
theorem suffix (h : s.Intact src) {start : Nat} (hle : s.start ≤ start) (hstop : start ≤ s.stop) :
    (Span.mk start s.stop).Intact src where
  le := hstop
  size := h.size
  inside := fun o c ho hlt hc => h.inside o c (Nat.le_trans hle ho) hlt hc

/-- The text between two braces is intact. -/
theorem inner {o c : Nat} (h : (BraceMap.ofText src.toList).close o = some c) :
    (Span.mk (o + 1) c).Intact src where
  le := BraceMap.lt_of_close h
  size := by
    have hlt := BraceMap.close_lt_length h
    rw [Array.length_toList] at hlt
    exact Nat.le_of_lt hlt
  inside := fun o' c' ho hlt hc' => by
    obtain ⟨c'', hc'', hin⟩ := BraceMap.close_inside h ho hlt (BraceMap.getElem?_of_close hc')
    rw [hc', Option.some.injEq] at hc''
    exact hc'' ▸ hin

theorem skipBlank (h : s.Intact src) : (s.skipBlank src).Intact src :=
  h.suffix (s.start_le_skipBlank src) (h.shows_text.skipBlank.start_le)

/-- A space is no brace: without it the span is as intact. -/
theorem dropSpace (h : s.Intact src) : (s.dropSpace src).Intact src := by
  by_cases hsp : (s.start < s.stop && src.isAt ' ' (s.stop - 1)) = true
  · have hdrop : s.dropSpace src = ⟨s.start, s.stop - 1⟩ := by rw [Span.dropSpace, if_pos hsp]
    simp only [Bool.and_eq_true, decide_eq_true_eq, Source.isAt, beq_iff_eq] at hsp
    have hsize := h.size
    rw [hdrop]
    refine ⟨by simp only; omega, by simp only; omega, fun o c ho hlt hc => ?_⟩
    have hin := h.inside o c ho (Nat.lt_of_lt_of_le hlt (Nat.sub_le _ _)) hc
    have hne : c ≠ s.stop - 1 := by
      rintro rfl
      have hbrace := BraceMap.getElem?_close hc
      rw [Array.getElem?_toList, hsp.2] at hbrace
      exact absurd hbrace (by decide)
    simp only
    omega
  · rw [Span.dropSpace, if_neg hsp]
    exact h

/-- The branch of an intact span is intact. -/
theorem branch (h : s.Intact src) : (s.branch src).Intact src := h.skipBlank.dropSpace

/-! ## Parts -/

/-- All groups that begin from `start` on and before `pos` end before `pos`. -/
def Settled (src : Source) (start pos : Nat) : Prop :=
  ∀ o c, start ≤ o → o < pos → (BraceMap.ofText src.toList).close o = some c → c < pos

theorem Settled.nothing (src : Source) (pos : Nat) : Settled src pos pos :=
  fun _ _ ho hlt _ => absurd hlt (Nat.not_lt.2 ho)

/-- A group is stepped over as a whole. -/
theorem Settled.group {start pos close : Nat} (h : Settled src start pos)
    (hc : (BraceMap.ofText src.toList).close pos = some close) :
    Settled src start (close + 1) := by
  intro o c ho hlt hoc
  have hforward := BraceMap.lt_of_close hc
  rcases Nat.lt_trichotomy o pos with hbefore | rfl | hafter
  · have := h o c ho hbefore hoc
    omega
  · rw [hc, Option.some.injEq] at hoc
    omega
  · rcases Nat.lt_succ_iff_lt_or_eq.1 hlt with hin | rfl
    · exact Nat.lt_succ_of_lt ((inner hc).inside o c hafter hin hoc)
    · -- The closing brace itself opens nothing.
      have hopen := BraceMap.getElem?_of_close hoc
      rw [BraceMap.getElem?_close hc] at hopen
      exact absurd hopen (by decide)

/-- A character that begins no group is stepped over. -/
theorem Settled.char {start pos : Nat} (h : Settled src start pos)
    (hc : (BraceMap.ofText src.toList).close pos = none) : Settled src start (pos + 1) := by
  intro o c ho hlt hoc
  rcases Nat.lt_succ_iff_lt_or_eq.1 hlt with hbefore | rfl
  · exact Nat.lt_succ_of_lt (h o c ho hbefore hoc)
  · rw [hc] at hoc
    exact nomatch hoc

theorem of_settled {start pos : Nat} (hle : start ≤ pos) (hsize : pos ≤ src.size)
    (h : Settled src start pos) : (Span.mk start pos).Intact src :=
  ⟨hle, hsize, h⟩

/-- A group that does not end in an intact span has no end. -/
theorem close_eq_none (h : s.Intact src) {pos : Nat} (hle : s.start ≤ pos) (hlt : pos < s.stop)
    (hc : ((BraceMap.ofText src.toList).close pos).filter (· < s.stop) = none) :
    (BraceMap.ofText src.toList).close pos = none := by
  cases hclose : (BraceMap.ofText src.toList).close pos with
  | none => rfl
  | some c =>
      have hin := h.inside pos c hle hlt hclose
      rw [hclose, Option.filter_some_pos (by simpa using hin)] at hc
      exact nomatch hc

/-- Every part of an intact span is intact, and so are all the parts before the
    one that is looked at, taken together. -/
theorem partsFrom {sep : Char} {base stop start pos : Nat} (hspan : (Span.mk base stop).Intact src)
    (hbase : base ≤ start) (hle : start ≤ pos) (hpos : pos ≤ stop)
    (hstart : Settled src start pos) (hall : Settled src base pos) {part : Span}
    (h : part ∈ Span.partsFrom src (.ofText src.toList) sep stop start pos) :
    part.Intact src ∧ (part.start = start ∨ (Span.mk base (part.start - 1)).Intact src) := by
  have hsize := hspan.size
  simp only at hsize
  fun_induction Span.partsFrom src (.ofText src.toList) sep stop start pos with
  | case1 start pos hlt close hc ih =>
      obtain ⟨hclose, hin⟩ := Option.filter_eq_some_iff.1 hc
      have hforward := BraceMap.lt_of_close hclose
      have hin' : close < stop := by simpa using hin
      exact ih hbase (by omega) hin' (hstart.group hclose) (hall.group hclose) h
  | case2 start pos hlt hc hsep ih =>
      have hnone := hspan.close_eq_none (by simp only; omega) hlt hc
      rcases List.mem_cons.1 h with rfl | h
      · exact ⟨of_settled hle (by omega) hstart, .inl rfl⟩
      · obtain ⟨hpart, heq | hbefore⟩ :=
          ih (by omega) (Nat.le_refl _) hlt (.nothing _ _) (hall.char hnone) h
        · refine ⟨hpart, .inr ?_⟩
          rw [heq, Nat.add_sub_cancel]
          exact of_settled (by omega) (by omega) hall
        · exact ⟨hpart, .inr hbefore⟩
  | case3 start pos hlt hc hsep ih =>
      have hnone := hspan.close_eq_none (by simp only; omega) hlt hc
      exact ih hbase (by omega) hlt (hstart.char hnone) (hall.char hnone) h
  | case4 start pos hlt =>
      obtain rfl := List.mem_singleton.1 h
      exact ⟨hspan.suffix hbase (by simp only; omega), .inl rfl⟩

theorem part (h : s.Intact src) {sep : Char} {part : Span}
    (hpart : part ∈ s.parts src (.ofText src.toList) sep) : part.Intact src :=
  (partsFrom (show (Span.mk s.start s.stop).Intact src from h) (Nat.le_refl _) (Nat.le_refl _) h.le
    (.nothing _ _) (.nothing _ _) hpart).1

/-- All that stands before the separator in front of a part. -/
theorem before_part (h : s.Intact src) {sep : Char} {part : Span}
    (hpart : part ∈ s.parts src (.ofText src.toList) sep) (hlt : s.start < part.start) :
    (Span.mk s.start (part.start - 1)).Intact src :=
  (partsFrom (show (Span.mk s.start s.stop).Intact src from h) (Nat.le_refl _) (Nat.le_refl _) h.le
    (.nothing _ _) (.nothing _ _) hpart).2.resolve_left (Nat.ne_of_gt hlt)

/-! ## Readers -/

/-- A group that begins in an intact span is read as one of its text. -/
theorem readGroup_shift {α : Type} {read read' : Span → Option α} {move : α → α} {t : Text}
    (hs : s.Intact src) (hshow : s.Shows src t)
    (hread : ∀ {r : Span} {u : Text}, r.Shows t.toArray u → read (r.shift s.start) =
      (read' r).map move) {o : Nat} (ho : o < t.length) :
    (BraceMap.ofText src.toList).readGroup read (o + s.start) =
      ((BraceMap.ofText t).readGroup read' o).map fun found =>
        (move found.1, found.2 + s.start) := by
  rw [← hshow.window.readGroup_shift hread]
  cases h : (BraceMap.ofText src.toList).readGroup read (o + s.start) with
  | none => rfl
  | some found =>
      have hstop := hshow.stop_eq
      have hin := hs.inside _ _ (Nat.le_add_left _ _) (by omega) (BraceMap.readGroup_eq_some.1 h).1
      rw [Option.filter_some_pos]
      rw [List.size_toArray, decide_eq_true_eq]
      omega

end Intact
end Span
end StoryTemplate
