import StoryTemplate.Proofs.Braces.Locality
import StoryTemplate.Proofs.Source.Views

/-! # Windows — a text read as part of a longer one

    An expression is read from the positions between its braces only.  So the
    reading of a text gives the same result, further on by the length of what
    stands before it, when the text is part of a longer one.  A `Window` is
    such a part with its own pairs of braces.

    Main facts: `window_of_infix` (every part of a text is one),
    `Window.branch_shift` and its like (spans are read alike in both) and
    `Window.parts_shift` (and divided alike). -/

namespace StoryTemplate

namespace Span

/-- The span `k` positions further on. -/
def shift (s : Span) (k : Nat) : Span := ⟨s.start + k, s.stop + k⟩

@[simp] theorem shift_start (s : Span) (k : Nat) : (s.shift k).start = s.start + k := rfl

@[simp] theorem shift_stop (s : Span) (k : Nat) : (s.shift k).stop = s.stop + k := rfl

/-- The span after the first position, further on. -/
theorem tail_shift (s : Span) (k : Nat) :
    mk ((s.shift k).start + 1) (s.shift k).stop = (mk (s.start + 1) s.stop).shift k := by
  show mk (s.start + k + 1) (s.stop + k) = ⟨s.start + 1 + k, s.stop + k⟩
  rw [Nat.add_right_comm]

/-- Parts lie in their span. -/
theorem part_le {src : Source} {braces : BraceMap} {sep : Char} {stop start pos : Nat}
    (hle : start ≤ pos) (hpos : pos ≤ stop) {part : Span}
    (h : part ∈ partsFrom src braces sep stop start pos) :
    part.start ≤ part.stop ∧ part.stop ≤ stop := by
  fun_induction partsFrom src braces sep stop start pos with
  | case1 start pos hlt close hc ih =>
      have hclose := Option.filter_eq_some_iff.1 hc
      have hforward := BraceMap.lt_of_close hclose.1
      have hin : close < stop := by simpa using hclose.2
      exact ih (by omega) (by omega) h
  | case2 start pos hlt hc hsep ih =>
      rcases List.mem_cons.1 h with rfl | h
      · exact ⟨hle, hpos⟩
      · exact ih (Nat.le_refl _) hlt h
  | case3 start pos hlt hc hsep ih => exact ih (by omega) hlt h
  | case4 start pos hlt =>
      obtain rfl := List.mem_singleton.1 h
      exact ⟨Nat.le_trans hle hpos, Nat.le_refl _⟩

/-- Parts of a span that shows some text show text. -/
theorem Shows.part {s : Span} {src : Source} {t : Text} (h : s.Shows src t) {braces : BraceMap}
    {sep : Char} {part : Span} (hpart : part ∈ s.parts src braces sep) :
    part.Shows src (part.text src) := by
  have hle := part_le (Nat.le_refl _) h.start_le hpart
  exact .of_le hle.1 (Nat.le_trans hle.2 h.stop_le)

end Span

namespace BraceMap

/-- The reading of what stands between the brace at a position and the one that
    closes it, with the position of the latter. -/
def readGroup {α : Type} (braces : BraceMap) (read : Span → Option α) (opened : Nat) :
    Option (α × Nat) :=
  (braces.close opened).bind fun close => (read ⟨opened + 1, close⟩).map (·, close)

theorem readGroup_eq_some {α : Type} {braces : BraceMap} {read : Span → Option α}
    {opened close : Nat} {value : α} : readGroup braces read opened = some (value, close) ↔
      braces.close opened = some close ∧ read ⟨opened + 1, close⟩ = some value := by
  rw [readGroup, Option.bind_eq_some_iff]
  constructor
  · rintro ⟨c, hc, hread⟩
    obtain ⟨v, hv, heq⟩ := Option.map_eq_some_iff.1 hread
    obtain ⟨rfl, rfl⟩ := Prod.mk.inj heq
    exact ⟨hc, hv⟩
  · rintro ⟨hc, hv⟩
    exact ⟨close, hc, by rw [hv, Option.map_some]⟩

end BraceMap

/-- The source `sub` with its pairs is what stands in the source `src` from the
    position `k` on. -/
structure Window (src : Source) (braces : BraceMap) (sub : Source) (pairs : BraceMap)
    (k : Nat) : Prop where
  shows_sub : Span.Shows ⟨k, k + sub.size⟩ src sub.toList
  close_iff : ∀ o c, pairs.close o = some c ↔ braces.close (k + o) = some (k + c) ∧ c < sub.size

/-- Every part of a text is a window of it. -/
theorem window_of_infix (before s after : Text) :
    Window (before ++ (s ++ after)).toArray (.ofText (before ++ (s ++ after))) s.toArray
      (.ofText s) before.length where
  shows_sub := ⟨before, after, by simp, rfl, by simp⟩
  close_iff := fun o c => by
    rw [List.size_toArray]
    exact BraceMap.close_infix before s after o c

/-- The text of a span is a window of the source. -/
theorem Span.Shows.window {s : Span} {src : Source} {t : Text} (h : s.Shows src t) :
    Window src (.ofText src.toList) t.toArray (.ofText t) s.start := by
  obtain ⟨before, after, heq, hstart, -⟩ := h
  have hwin := window_of_infix before t after
  rw [← heq, Array.toArray_toList, hstart] at hwin
  exact hwin

namespace Window

variable {src sub : Source} {braces pairs : BraceMap} {k : Nat}

/-- What a span shows in the window it shows in the whole source. -/
theorem shows_of (w : Window src braces sub pairs k) {s : Span} {t : Text}
    (h : s.Shows sub t) : (s.shift k).Shows src t := by
  obtain ⟨before, after, heq, hstart, hstop⟩ := h
  have hwin := w.shows_sub
  rw [heq] at hwin
  have ht := hwin.right.left
  have hpos : k + before.length = s.start + k := by omega
  have hend : s.start + k + t.length = s.stop + k := by omega
  simp only at ht
  rw [hpos, hend] at ht
  exact ht

/-- A group of the whole source that ends in the window is one of the window. -/
theorem close_filter (w : Window src braces sub pairs k) {stop : Nat} (hstop : stop ≤ sub.size)
    (o : Nat) : (braces.close (o + k)).filter (· < stop + k) =
      ((pairs.close o).filter (· < stop)).map (· + k) := by
  rw [Nat.add_comm o k]
  cases hc : braces.close (k + o) with
  | none =>
      cases hp : pairs.close o with
      | none => rfl
      | some c =>
          have := ((w.close_iff o c).1 hp).1
          rw [hc] at this
          exact nomatch this
  | some c =>
      have hforward := BraceMap.lt_of_close hc
      by_cases hlt : c < stop + k
      · have hin : c - k < stop := by omega
        have hp : pairs.close o = some (c - k) :=
          (w.close_iff o (c - k)).2 ⟨by rw [hc, Nat.add_sub_cancel' (by omega)], by omega⟩
        rw [hp, Option.filter_some_pos (by simpa using hlt),
          Option.filter_some_pos (by simpa using hin), Option.map_some,
          Nat.sub_add_cancel (by omega)]
      · rw [Option.filter_some_neg (by simpa using hlt)]
        cases hp : pairs.close o with
        | none => rfl
        | some c' =>
            have heq := ((w.close_iff o c').1 hp).1
            rw [hc, Option.some.injEq] at heq
            have hge : stop ≤ c' := by omega
            rw [Option.filter_some_neg (by simpa using hge)]
            rfl

/-- A position of the window holds the same character in the whole source. -/
theorem getElem?_shift (w : Window src braces sub pairs k) {i : Nat} (hi : i < sub.size) :
    src[i + k]? = sub[i]? := by
  have hget := w.shows_sub.getElem? (i := i) (by simpa using hi)
  rw [Array.getElem?_toList] at hget
  rw [Nat.add_comm]
  exact hget

theorem isAt_shift (w : Window src braces sub pairs k) {i : Nat} (hi : i < sub.size) (c : Char) :
    src.isAt c (i + k) = sub.isAt c i := by
  rw [Source.isAt, Source.isAt, w.getElem?_shift hi]

theorem holdsAt_shift (w : Window src braces sub pairs k) {i : Nat} (hi : i < sub.size)
    (p : Char → Bool) : src.holdsAt p (i + k) = sub.holdsAt p i := by
  rw [Source.holdsAt, Source.holdsAt, w.getElem?_shift hi]

variable {s : Span} {t : Text}

theorem text_shift (w : Window src braces sub pairs k) (h : s.Shows sub t) :
    (s.shift k).text src = s.text sub := by
  rw [(w.shows_of h).text_eq, h.text_eq]

theorem startsWith_shift (w : Window src braces sub pairs k) (h : s.Shows sub t) (c : Char) :
    (s.shift k).startsWith src c = s.startsWith sub c := by
  rw [(w.shows_of h).startsWith_eq, h.startsWith_eq]

theorem isEmpty_shift (w : Window src braces sub pairs k) (h : s.Shows sub t) :
    (s.shift k).isEmpty = s.isEmpty := by
  rw [(w.shows_of h).isEmpty_eq, h.isEmpty_eq]

/-- What a span begins with, as far as it is not empty. -/
theorem not_holdsAt_start (w : Window src braces sub pairs k) (h : s.Shows sub t)
    (p : Char → Bool) : (s.isEmpty || !src.holdsAt p (s.start + k)) =
      (s.isEmpty || !sub.holdsAt p s.start) := by
  have hstop := h.stop_le
  by_cases hempty : s.isEmpty = true
  · rw [hempty, Bool.true_or, Bool.true_or]
  · have hlt : s.start < s.stop := by
      simp only [Span.isEmpty, decide_eq_true_eq, Nat.not_le] at hempty
      exact hempty
    rw [w.holdsAt_shift (Nat.lt_of_lt_of_le hlt hstop)]

theorem find_shift (w : Window src braces sub pairs k) (h : s.Shows sub t) (p : Char → Bool) :
    (s.shift k).find (fun i => !src.holdsAt p i) = s.find (fun i => !sub.holdsAt p i) + k := by
  rw [(w.shows_of h).find_eq (Span.Shows.not_holdsAt p), h.find_eq (Span.Shows.not_holdsAt p)]
  exact Nat.add_right_comm _ _ _

theorem skipBlank_shift (w : Window src braces sub pairs k) (h : s.Shows sub t) :
    (s.shift k).skipBlank src = (s.skipBlank sub).shift k :=
  congrArg (Span.mk · (s.stop + k)) (w.find_shift h isBlank)

theorem word_shift (w : Window src braces sub pairs k) (h : s.Shows sub t) :
    (s.shift k).word src = (s.word sub).shift k :=
  congrArg (Span.mk (s.start + k)) (w.find_shift h isWord)

theorem branch_shift (w : Window src braces sub pairs k) (h : s.Shows sub t) :
    (s.shift k).branch src = (s.branch sub).shift k := by
  refine (w.shows_of h).branch.unique (w.shows_of h.branch) ?_
  have hstart : ((s.shift k).branch src).start = ((s.branch sub).shift k).start := by
    rw [Span.branch, Span.dropSpace_start, w.skipBlank_shift h, Span.shift_start, Span.shift_start,
      Span.branch, Span.dropSpace_start]
  rw [(w.shows_of h).branch.stop_eq, (w.shows_of h.branch).stop_eq, hstart]

/-- Spans are divided alike. -/
theorem partsFrom_shift (w : Window src braces sub pairs k) (sep : Char) {stop : Nat}
    (hstop : stop ≤ sub.size) (start pos : Nat) :
    Span.partsFrom src braces sep (stop + k) (start + k) (pos + k) =
      (Span.partsFrom sub pairs sep stop start pos).map (Span.shift · k) := by
  fun_induction Span.partsFrom sub pairs sep stop start pos with
  | case1 start pos hlt close hc ih =>
      have hfilter : (braces.close (pos + k)).filter (· < stop + k) = some (close + k) := by
        rw [w.close_filter hstop, hc]
        rfl
      rw [← ih, Span.partsFrom, if_pos (by omega)]
      split
      · rename_i close' hc'
        rw [hfilter, Option.some.injEq] at hc'
        rw [← hc', Nat.add_right_comm]
      · rename_i hc'
        rw [hfilter] at hc'
        cases hc'
  | case2 start pos hlt hc hsep ih =>
      have hfilter : (braces.close (pos + k)).filter (· < stop + k) = none := by
        rw [w.close_filter hstop, hc]
        rfl
      rw [List.map_cons, ← ih, Span.partsFrom, if_pos (by omega)]
      split
      · rename_i close' hc'
        rw [hfilter] at hc'
        cases hc'
      · rw [w.isAt_shift (Nat.lt_of_lt_of_le hlt hstop), if_pos hsep, Nat.add_right_comm]
        rfl
  | case3 start pos hlt hc hsep ih =>
      have hfilter : (braces.close (pos + k)).filter (· < stop + k) = none := by
        rw [w.close_filter hstop, hc]
        rfl
      rw [← ih, Span.partsFrom, if_pos (by omega)]
      split
      · rename_i close' hc'
        rw [hfilter] at hc'
        cases hc'
      · rw [w.isAt_shift (Nat.lt_of_lt_of_le hlt hstop), if_neg hsep, Nat.add_right_comm]
  | case4 start pos hlt =>
      rw [Span.partsFrom, if_neg (by omega)]
      rfl

theorem parts_shift (w : Window src braces sub pairs k) (h : s.Shows sub t) (sep : Char) :
    (s.shift k).parts src braces sep = (s.parts sub pairs sep).map (Span.shift · k) :=
  w.partsFrom_shift sep h.stop_le s.start s.start

/-! ## Readers -/

/-- A group that ends in a window is read alike in both. -/
theorem readGroup_shift {α : Type} {read read' : Span → Option α} {move : α → α}
    (w : Window src braces sub pairs k)
    (hread : ∀ {s : Span} {t : Text}, s.Shows sub t → read (s.shift k) = (read' s).map move)
    (o : Nat) :
    (braces.readGroup read (o + k)).filter (fun found => found.2 < sub.size + k) =
      (pairs.readGroup read' o).map fun found => (move found.1, found.2 + k) := by
  have hclose := w.close_filter (Nat.le_refl sub.size) o
  rw [BraceMap.readGroup, BraceMap.readGroup]
  cases hc : pairs.close o with
  | some c =>
      obtain ⟨hbraces, hlt⟩ := (w.close_iff o c).1 hc
      have hopen := BraceMap.lt_of_close hc
      have hspan : (Span.mk (o + 1) c).Shows sub _ :=
        .of_le (by simp only; omega) (by simp only; omega)
      have hinner : Span.mk (o + k + 1) (k + c) = (Span.mk (o + 1) c).shift k := by
        show Span.mk (o + k + 1) (k + c) = ⟨o + 1 + k, c + k⟩
        rw [Nat.add_right_comm, Nat.add_comm k c]
      rw [Nat.add_comm o k, hbraces, Option.bind_some, Nat.add_comm k o, hinner, hread hspan,
        Option.bind_some]
      cases read' ⟨o + 1, c⟩ with
      | none => rfl
      | some value =>
          rw [Option.map_some, Option.map_some, Option.map_some,
            Option.filter_some_pos (by simp only [decide_eq_true_eq]; omega), Option.map_some,
            Nat.add_comm k c]
  | none =>
      rw [hc] at hclose
      cases hb : braces.close (o + k) with
      | none => rfl
      | some c =>
          rw [hb] at hclose
          have hge : ¬ c < sub.size + k := fun hlt => by
            rw [Option.filter_some_pos (by simpa using hlt)] at hclose
            exact nomatch hclose
          rw [Option.bind_some, Option.bind_none, Option.map_none]
          cases read ⟨o + k + 1, c⟩ with
          | none => rfl
          | some value => rw [Option.map_some, Option.filter_some_neg (by simpa using hge)]

end Window
end StoryTemplate
