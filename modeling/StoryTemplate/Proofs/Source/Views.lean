import Mathlib.Data.List.TakeWhile
import StoryTemplate.Proofs.Text.Cuts
import StoryTemplate.Source

/-! # Views — the text that a span stands for

    A span names positions, and what an expression means is decided by the text
    at those positions.  `Span.Shows` ties the two together: the source is some
    text, then the text that is shown, then some more text.  Each operation on a
    span is then an operation on lists of characters.

    Main facts: `Shows.skipBlank`, `Shows.word`, `Shows.branch` (the spans that
    reading is made of show what the text functions give), `Shows.find` (a
    search is a `takeWhile`) and `Shows.unique` (the text and the end of a span
    determine the span). -/

namespace StoryTemplate

/-- The text without the one space that may stand at its end. -/
def dropLastSpace (s : Text) : Text := if s.getLast? = some ' ' then s.dropLast else s

/-- The text of a branch: leading white space and one space at the end are
    layout. -/
def branchText (s : Text) : Text := dropLastSpace (trimStart s)

theorem dropLastSpace_append (s : Text) : dropLastSpace (s ++ [' ']) = s := by
  simp [dropLastSpace]

theorem dropLastSpace_begins (s : Text) : dropLastSpace s <+: s := by
  by_cases h : s.getLast? = some ' '
  · rw [dropLastSpace, if_pos h]
    exact List.dropLast_prefix s
  · rewrite [dropLastSpace, if_neg h]
    exact List.prefix_refl s

namespace Span

/-- The span lies in the source, and the characters at its positions are `t`. -/
def Shows (s : Span) (src : Source) (t : Text) : Prop :=
  ∃ before after, src.toList = before ++ (t ++ after) ∧ before.length = s.start ∧
    s.stop = s.start + t.length

namespace Shows

variable {s : Span} {src : Source} {t : Text}

theorem stop_eq (h : s.Shows src t) : s.stop = s.start + t.length := by
  obtain ⟨before, after, -, -, hstop⟩ := h
  exact hstop

theorem start_le (h : s.Shows src t) : s.start ≤ s.stop := by
  rw [h.stop_eq]
  exact Nat.le_add_right _ _

theorem stop_le (h : s.Shows src t) : s.stop ≤ src.size := by
  obtain ⟨before, after, heq, hstart, hstop⟩ := h
  have hlen := congrArg List.length heq
  simp only [Array.length_toList, List.length_append] at hlen
  omega

/-- The characters of the text stand at the positions of the span. -/
theorem getElem? (h : s.Shows src t) {i : Nat} (hi : i < t.length) :
    src[s.start + i]? = t[i]? := by
  obtain ⟨before, after, heq, hstart, -⟩ := h
  rw [← Array.getElem?_toList, heq, ← hstart, List.getElem?_append_right (Nat.le_add_right _ _),
    Nat.add_sub_cancel_left, List.getElem?_append_left hi]

/-- The first character stands where the span begins. -/
theorem head {c : Char} (h : s.Shows src (c :: t)) : src[s.start]? = some c := by
  have hget := h.getElem? (i := 0) (by simp)
  rwa [Nat.add_zero, List.getElem?_cons_zero] at hget

/-- A span shows its text. -/
theorem text_eq (h : s.Shows src t) : s.text src = t := by
  obtain ⟨before, after, heq, hstart, hstop⟩ := h
  show (src.extract s.start s.stop).toList = t
  rw [Array.toList_extract, List.extract_eq_take_drop, heq, ← hstart, hstop, ← hstart,
    List.drop_left, Nat.add_sub_cancel_left, List.take_left]

/-- The text and the end of a span determine the span. -/
theorem unique {r : Span} (h : s.Shows src t) (hr : r.Shows src t) (hstop : s.stop = r.stop) :
    s = r := by
  have hs := h.stop_eq
  have hr' := hr.stop_eq
  obtain ⟨start, stop⟩ := s
  obtain ⟨start', stop'⟩ := r
  simp only at hstop hs hr'
  rw [mk.injEq]
  omega

/-- The whole source shows its text. -/
theorem whole (s : Text) : Shows ⟨0, s.toArray.size⟩ s.toArray s :=
  ⟨[], [], by simp, rfl, by simp⟩

/-- The span between two braces shows what stands between them. -/
theorem group (before body after : Text) :
    Shows ⟨before.length + 1, before.length + 1 + body.length⟩
      (before ++ '\x7b' :: (body ++ '\x7d' :: after)).toArray body :=
  ⟨before ++ ['\x7b'], '\x7d' :: after, by simp, by simp, rfl⟩

/-- A span within the source shows its text. -/
theorem of_le (hle : s.start ≤ s.stop) (hsize : s.stop ≤ src.size) :
    s.Shows src (s.text src) := by
  refine ⟨src.toList.take s.start, src.toList.drop s.stop, ?_, ?_, ?_⟩
  · rw [text, Array.toList_extract, List.extract_eq_take_drop]
    have hdrop : src.toList.drop s.stop = (src.toList.drop s.start).drop (s.stop - s.start) := by
      rw [List.drop_drop, Nat.add_sub_cancel' hle]
    rw [hdrop, List.take_append_drop, List.take_append_drop]
  · rw [List.length_take, Array.length_toList]
    omega
  · rw [text, Array.toList_extract, List.extract_eq_take_drop, List.length_take,
      List.length_drop, Array.length_toList]
    omega

/-! ## Parts of a span -/

/-- The first part of the text is shown by the first part of the span. -/
theorem left {u v : Text} (h : s.Shows src (u ++ v)) :
    Shows ⟨s.start, s.start + u.length⟩ src u := by
  obtain ⟨before, after, heq, hstart, -⟩ := h
  exact ⟨before, v ++ after, by rw [heq, List.append_assoc], hstart, rfl⟩

/-- The rest of the text is shown by the rest of the span. -/
theorem right {u v : Text} (h : s.Shows src (u ++ v)) :
    Shows ⟨s.start + u.length, s.stop⟩ src v := by
  obtain ⟨before, after, heq, hstart, hstop⟩ := h
  refine ⟨before ++ u, after, by rw [heq]; simp, ?_, ?_⟩
  · rw [List.length_append, hstart]
  · rw [hstop, List.length_append, Nat.add_assoc]

/-- The first `n` characters. -/
theorem take (h : s.Shows src t) {n : Nat} (hn : n ≤ t.length) :
    Shows ⟨s.start, s.start + n⟩ src (t.take n) := by
  rw [← List.take_append_drop n t] at h
  have hleft := h.left
  rwa [List.length_take, Nat.min_eq_left hn] at hleft

/-- All but the first `n` characters. -/
theorem drop (h : s.Shows src t) {n : Nat} (hn : n ≤ t.length) :
    Shows ⟨s.start + n, s.stop⟩ src (t.drop n) := by
  rw [← List.take_append_drop n t] at h
  have hright := h.right
  rwa [List.length_take, Nat.min_eq_left hn] at hright

theorem tail {c : Char} {v : Text} (h : s.Shows src (c :: v)) :
    Shows ⟨s.start + 1, s.stop⟩ src v :=
  right (u := [c]) h

/-! ## Searching -/

/-- A search over the source is a `takeWhile` over the text. -/
theorem seek_eq {test : Nat → Bool} {p : Char → Bool}
    (htest : ∀ (i : Nat) (c : Char), src[i]? = some c → test i = !p c)
    {pos : Nat} (h : Shows ⟨pos, pos + t.length⟩ src t) :
    seek test pos t.length = pos + (t.takeWhile p).length := by
  induction t generalizing pos with
  | nil => rfl
  | cons c r ih =>
      have hc : src[pos]? = some c := h.head
      have hr : Shows ⟨pos + 1, pos + 1 + r.length⟩ src r := by
        have := h.tail
        rw [List.length_cons] at this
        rwa [show pos + 1 + r.length = pos + (r.length + 1) by omega]
      rw [List.length_cons, seek, htest pos c hc]
      by_cases hp : p c = true
      · rw [hp, if_neg (by decide), ih hr, List.takeWhile_cons_of_pos hp, List.length_cons]
        omega
      · rw [Bool.not_eq_true] at hp
        rw [hp, Bool.not_false, if_pos rfl, List.takeWhile_cons_of_neg (by rw [hp]; decide)]
        rfl

theorem find_eq {test : Nat → Bool} {p : Char → Bool} (h : s.Shows src t)
    (htest : ∀ (i : Nat) (c : Char), src[i]? = some c → test i = !p c) :
    s.find test = s.start + (t.takeWhile p).length := by
  have hlen : s.length = t.length := by
    rw [length, h.stop_eq, Nat.add_sub_cancel_left]
  rw [find, hlen]
  refine seek_eq htest ?_
  rw [← h.stop_eq]
  exact h

theorem not_holdsAt (p : Char → Bool) (i : Nat) (c : Char) (h : src[i]? = some c) :
    (!src.holdsAt p i) = !p c := by
  rw [Source.holdsAt, h]
  rfl

theorem isAt_eq (d : Char) (i : Nat) (c : Char) (h : src[i]? = some c) :
    src.isAt d i = !(c != d) := by
  rw [Source.isAt, h]
  show (c == d) = !(!(c == d))
  rw [Bool.not_not]

/-- What stands at the beginning of a span is what its text begins with. -/
theorem startsWith_eq (h : s.Shows src t) (c : Char) :
    s.startsWith src c = (t.head? == some c) := by
  have hstop := h.stop_eq
  cases t with
  | nil =>
      rw [List.length_nil, Nat.add_zero] at hstop
      simp [Span.startsWith, hstop]
  | cons d r =>
      have hd : src[s.start]? = some d := h.head
      rw [List.length_cons] at hstop
      simp only [Span.startsWith, Source.isAt, hd, List.head?_cons, Bool.and_eq_right_iff_imp,
        decide_eq_true_eq]
      omega

/-- After the character that a span begins with comes the rest of its text. -/
theorem tail_of_startsWith {c : Char} (h : s.Shows src t) (hc : s.startsWith src c = true) :
    Shows ⟨s.start + 1, s.stop⟩ src t.tail := by
  rw [h.startsWith_eq] at hc
  cases t with
  | nil => exact nomatch hc
  | cons d r => exact h.tail

/-- A span is empty if its text is. -/
theorem isEmpty_eq (h : s.Shows src t) : s.isEmpty = t.isEmpty := by
  have hstop := h.stop_eq
  cases t with
  | nil =>
      rw [List.length_nil, Nat.add_zero] at hstop
      simp [Span.isEmpty, hstop]
  | cons d r =>
      rw [List.length_cons] at hstop
      simp only [Span.isEmpty, List.isEmpty_cons, decide_eq_false_iff_not]
      omega

/-- The class of the first character. -/
theorem holdsAt_eq {c : Char} (h : s.Shows src (c :: t)) (p : Char → Bool) :
    src.holdsAt p s.start = p c := by
  rw [Source.holdsAt, h.head]
  rfl

/-- Whether the first character is of a class. -/
theorem startsWithClass (h : s.Shows src t) (p : Char → Bool) :
    (!s.isEmpty && src.holdsAt p s.start) = StoryTemplate.startsWith p t := by
  rw [h.isEmpty_eq]
  cases t with
  | nil => rfl
  | cons c r => exact h.holdsAt_eq p

/-! ## The spans that reading is made of -/

/-- The longest run of characters of a class at the beginning of the span is that
    of the text. -/
theorem run (h : s.Shows src t) (p : Char → Bool) :
    Shows ⟨s.start, s.find fun i => !src.holdsAt p i⟩ src (t.takeWhile p) := by
  have hsplit : s.Shows src (t.takeWhile p ++ t.dropWhile p) := by
    rw [List.takeWhile_append_dropWhile]
    exact h
  rw [h.find_eq (not_holdsAt p)]
  exact hsplit.left

/-- After that run comes what the text holds after it. -/
theorem afterRun (h : s.Shows src t) (p : Char → Bool) :
    Shows ⟨s.find fun i => !src.holdsAt p i, s.stop⟩ src (t.dropWhile p) := by
  have hsplit : s.Shows src (t.takeWhile p ++ t.dropWhile p) := by
    rw [List.takeWhile_append_dropWhile]
    exact h
  rw [h.find_eq (not_holdsAt p)]
  exact hsplit.right

/-- After the leading white space comes the trimmed text. -/
theorem skipBlank (h : s.Shows src t) : (s.skipBlank src).Shows src (trimStart t) :=
  h.afterRun isBlank

/-- The first word of the span is the first word of the text. -/
theorem word (h : s.Shows src t) : (s.word src).Shows src (t.takeWhile isWord) := h.run isWord

/-- After the first word comes what the text holds after it. -/
theorem afterWord (h : s.Shows src t) :
    Shows ⟨(s.word src).stop, s.stop⟩ src (t.dropWhile isWord) := h.afterRun isWord

/-- One space at the end of the span is one at the end of the text. -/
theorem dropSpace (h : s.Shows src t) : (s.dropSpace src).Shows src (dropLastSpace t) := by
  rcases List.eq_nil_or_concat t with rfl | ⟨u, c, rfl⟩
  · have hstop := h.stop_eq
    rw [List.length_nil, Nat.add_zero] at hstop
    have hsame : s.dropSpace src = s := by simp [Span.dropSpace, hstop]
    rw [hsame]
    exact h
  · rw [List.concat_eq_append] at h ⊢
    have hstop := h.stop_eq
    rw [List.length_append, List.length_singleton] at hstop
    have hc : src[s.stop - 1]? = some c := by
      rw [show s.stop - 1 = s.start + u.length by omega, h.getElem? (by simp)]
      simp
    by_cases hsp : c = ' '
    · subst hsp
      have hdrop : s.dropSpace src = ⟨s.start, s.stop - 1⟩ := by
        rw [Span.dropSpace, if_pos]
        rw [Source.isAt, hc]
        simp
        omega
      rw [hdrop, dropLastSpace_append, show s.stop - 1 = s.start + u.length by omega]
      exact h.left
    · have hsame : s.dropSpace src = s := by
        rw [Span.dropSpace, if_neg]
        rw [Source.isAt, hc]
        simp [hsp]
      rw [hsame, dropLastSpace, if_neg (by simp [hsp])]
      exact h

/-- The branch of a span shows the branch of the text. -/
theorem branch (h : s.Shows src t) : (s.branch src).Shows src (branchText t) :=
  h.skipBlank.dropSpace

end Shows

/-- The branch of a span does not end after the span. -/
theorem branch_stop_le (s : Span) (src : Source) : (s.branch src).stop ≤ s.stop := by
  rw [branch, dropSpace]
  by_cases hspace : ((s.skipBlank src).start < (s.skipBlank src).stop &&
      src.isAt ' ' ((s.skipBlank src).stop - 1)) = true
  · rw [if_pos hspace]
    exact Nat.sub_le s.stop 1
  · rw [if_neg hspace]
    exact Nat.le_refl s.stop

end Span
end StoryTemplate
