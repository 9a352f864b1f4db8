import StoryTemplate.Proofs.Braces.Division
import StoryTemplate.Proofs.Braces.Surplus
import StoryTemplate.Proofs.Source.Windows

/-! # Parts — a span is divided where its braces are even

    The parts of a span are found by stepping over whole groups.  Where the braces of
    the span belong together, that is the same as counting: a separator divides the span
    exactly if as many braces open as close before it.

    The route:

    * `balanced_iff_paired` reads balance off the pairs: no brace of the text is left
      alone;
    * `Shows.levelPoints_solid` and `Shows.levelPoints_cons` count along the solid texts
      that a balanced text is made of;
    * `Shows.parts_eq_divide` compares the two ways of dividing.

    Main fact: `Span.parts_at_level`. -/

namespace StoryTemplate

open BraceMap

/-! ## No brace is left alone -/

/-- A text has a last group that stays open, or closes as many groups as it needs to
    leave none open. -/
theorem exists_last_open_or_level (s : Text) :
    (∃ before body, s = before ++ '\x7b' :: body ∧ Balanced body) ∨
      ∃ depth, levelAfter depth s = some 0 := by
  induction s with
  | nil => exact .inr ⟨0, rfl⟩
  | cons c r ih =>
      rcases ih with ⟨before, body, rfl, hbody⟩ | ⟨depth, hdepth⟩
      · exact .inl ⟨c :: before, body, rfl, hbody⟩
      · rcases brace_cases c with rfl | rfl | hc
        · cases depth with
          | zero => exact .inl ⟨[], r, rfl, hdepth⟩
          | succ d => exact .inr ⟨d, by rw [levelAfter_open]; exact hdepth⟩
        · exact .inr ⟨depth + 1, by rw [levelAfter_close_succ]; exact hdepth⟩
        · exact .inr ⟨depth, by rw [levelAfter_cons hc]; exact hdepth⟩

/-- A balanced text closes no group from outside. -/
theorem Balanced.closingOffset_eq_none {s : Text} (h : Balanced s) : closingOffset 0 s = none := by
  cases hoffset : closingOffset 0 s with
  | none => rfl
  | some n =>
      obtain ⟨body, after, rfl, -, hbody⟩ := closingOffset_eq_some_iff.1 hoffset
      have hafter : levelAfter 0 ('\x7d' :: after) = some 0 := h.of_append_right hbody
      rw [levelAfter_close_zero] at hafter
      cases hafter

/-- Every closing brace of a balanced text closes a group. -/
theorem Balanced.exists_close {s : Text} (h : Balanced s) {c : Nat} (hc : s[c]? = some '\x7d') :
    ∃ o, (ofText s).close o = some c := by
  obtain ⟨hlt, hbrace⟩ := List.getElem?_eq_some_iff.1 hc
  have hsplit : s = s.take c ++ '\x7d' :: s.drop (c + 1) := by
    rw [← hbrace, List.getElem_cons_drop, List.take_append_drop]
  have hlen : (s.take c).length = c := by rw [List.length_take, Nat.min_eq_left hlt.le]
  generalize s.take c = front at hsplit hlen
  generalize s.drop (c + 1) = after at hsplit
  subst hsplit
  have hlevel : levelAfter 0 (front ++ '\x7d' :: after) = some 0 := h
  rw [levelAfter_append, Option.bind_eq_some_iff] at hlevel
  obtain ⟨level, hfront, hrest⟩ := hlevel
  rcases exists_last_open_or_level front with ⟨before, body, rfl, hbody⟩ | ⟨depth, hdepth⟩
  · refine ⟨before.length, ?_⟩
    have hclose := close_group before hbody after
    rw [List.length_append, List.length_cons] at hlen
    rw [List.append_assoc, List.cons_append, hclose, Option.some.injEq]
    omega
  · -- Without an open group in front the brace would have nothing to close.
    have hadd := levelAfter_add hfront depth
    rw [Nat.zero_add, hdepth, Option.some.injEq] at hadd
    obtain rfl : level = 0 := by omega
    rw [levelAfter_close_zero] at hrest
    cases hrest

/-- A text is balanced if every group that opens in it closes in it, and every brace that
    closes in it closes such a group. -/
theorem balanced_iff_paired {s : Text} :
    Balanced s ↔ Closed s ∧ ∀ c : Nat, s[c]? = some '\x7d' → ∃ o, (ofText s).close o = some c := by
  refine ⟨fun h => ⟨h.closed, fun c hc => h.exists_close hc⟩, ?_⟩
  rintro ⟨hclosed, hopened⟩
  rcases exists_last_open_or_level s with ⟨before, body, rfl, hbody⟩ | ⟨depth, hdepth⟩
  · -- The last open group would have to close behind itself.
    obtain ⟨-, hsome⟩ := closed_open_iff_isSome.1 hclosed.of_append
    rw [hbody.closingOffset_eq_none] at hsome
    cases hsome
  · cases depth with
    | zero => exact hdepth
    | succ d =>
        -- The first brace that closes a group from outside has no partner.
        obtain ⟨n, hn⟩ := @closingOffset_isSome d 0 0 s hdepth (Nat.zero_le d)
        obtain ⟨body, after, rfl, rfl, hbody⟩ := closingOffset_eq_some_iff.1 hn
        obtain ⟨o, ho⟩ := hopened body.length (by simp)
        have hlt := lt_of_close ho
        have hinside := close_lt_length (close_closed_append (Balanced.closed hbody) hlt ho)
        exact absurd hinside (Nat.lt_irrefl _)

namespace Span

variable {src : Source} {sep : Char} {s : Span} {a b t : Text}

/-- The span lies in the source, and its braces belong together: a group that opens in it
    closes in it, and a brace that closes in it closes a group that opens in it. -/
structure Whole (s : Span) (src : Source) : Prop where
  le : s.start ≤ s.stop
  size : s.stop ≤ src.size
  closes : ∀ o, s.start ≤ o → o < s.stop → src[o]? = some '\x7b' →
    ∃ c, (ofText src.toList).close o = some c ∧ c < s.stop
  opens : ∀ c, s.start ≤ c → c < s.stop → src[c]? = some '\x7d' →
    ∃ o, s.start ≤ o ∧ (ofText src.toList).close o = some c

/-- The braces of a span belong together exactly if its text is balanced. -/
theorem Shows.whole_iff (h : s.Shows src t) : s.Whole src ↔ Balanced t := by
  have hstop := h.stop_eq
  -- The pairs of the text are those of the source that lie in the span.
  have hpairs : ∀ o c, (ofText t).close o = some c ↔
      (ofText src.toList).close (s.start + o) = some (s.start + c) ∧ c < t.length :=
    h.window.close_iff
  rw [balanced_iff_paired]
  constructor
  · intro hwhole
    constructor
    · intro o ho
      have hlt := (List.getElem?_eq_some_iff.1 ho).1
      rw [← h.getElem? hlt] at ho
      obtain ⟨c, hc, hin⟩ := hwhole.closes _ (Nat.le_add_right _ _) (by omega) ho
      obtain ⟨i, rfl⟩ := Nat.exists_eq_add_of_le (Nat.le_of_add_right_le (lt_of_close hc).le)
      exact ⟨i, (hpairs o i).2 ⟨hc, by omega⟩⟩
    · intro c hc
      have hlt := (List.getElem?_eq_some_iff.1 hc).1
      rw [← h.getElem? hlt] at hc
      obtain ⟨o, hle, ho⟩ := hwhole.opens _ (Nat.le_add_right _ _) (by omega) hc
      obtain ⟨i, rfl⟩ := Nat.exists_eq_add_of_le hle
      exact ⟨i, (hpairs i c).2 ⟨ho, hlt⟩⟩
  · rintro ⟨hclosed, hopened⟩
    refine ⟨h.start_le, h.stop_le, ?_, ?_⟩
    · intro o hle hlt ho
      obtain ⟨i, rfl⟩ := Nat.exists_eq_add_of_le hle
      rw [h.getElem? (by omega)] at ho
      obtain ⟨c, hc⟩ := hclosed i ho
      obtain ⟨hclose, hin⟩ := (hpairs i c).1 hc
      exact ⟨s.start + c, hclose, by omega⟩
    · intro c hle hlt hc
      obtain ⟨i, rfl⟩ := Nat.exists_eq_add_of_le hle
      rw [h.getElem? (by omega)] at hc
      obtain ⟨o, ho⟩ := hopened i hc
      exact ⟨s.start + o, Nat.le_add_right _ _, ((hpairs o i).1 ho).1⟩

/-! ## Separators between even braces -/

/-- The positions of the separators in the span before which as many braces of the span
    open as close. -/
def levelPoints (s : Span) (src : Source) (sep : Char) : List Nat :=
  (List.range' s.start s.length).filter fun p => src[p]? = some sep ∧
    ((mk s.start p).text src).count '\x7b' = ((mk s.start p).text src).count '\x7d'

theorem mem_levelPoints_iff (hle : s.start ≤ s.stop) {p : Nat} :
    p ∈ s.levelPoints src sep ↔ s.start ≤ p ∧ p < s.stop ∧ src[p]? = some sep ∧
      ((mk s.start p).text src).count '\x7b' = ((mk s.start p).text src).count '\x7d' := by
  rw [levelPoints, List.mem_filter, List.mem_range'_1, length, Nat.add_sub_cancel' hle,
    decide_eq_true_iff, and_assoc]

/-- As many braces open as close in a text without surplus. -/
theorem count_eq_iff_surplus (t : Text) : t.count '\x7b' = t.count '\x7d' ↔ surplus t = 0 := by
  rw [surplus]
  omega

/-- The beginning of a balanced text is balanced if as many braces open in it as close. -/
theorem Balanced.of_surplus {u v : Text} (h : Balanced (u ++ v)) (hu : surplus u = 0) :
    Balanced u := by
  have hlevel : levelAfter 0 (u ++ v) = some 0 := h
  rw [levelAfter_append, Option.bind_eq_some_iff] at hlevel
  obtain ⟨d, hd, -⟩ := hlevel
  have hcount := levelAfter_surplus hd
  obtain rfl : d = 0 := by omega
  exact hd

/-- In a solid text all separators stand within groups. -/
theorem Shows.levelPoints_solid (hsep : NoBrace sep) (ha : Solid sep a) (h : s.Shows src a) :
    s.levelPoints src sep = [] := by
  rw [List.eq_nil_iff_forall_not_mem]
  intro p hp
  obtain ⟨hle, hlt, hat, heven⟩ := (mem_levelPoints_iff h.start_le).1 hp
  obtain ⟨i, rfl⟩ := Nat.exists_eq_add_of_le hle
  have hstop := h.stop_eq
  have hi : i < a.length := by omega
  rw [h.getElem? hi, List.getElem?_eq_getElem hi, Option.some.injEq] at hat
  rw [(h.take hi.le).text_eq, count_eq_iff_surplus] at heven
  have hsplit : a = a.take i ++ sep :: a.drop (i + 1) := by
    rw [← hat, List.getElem_cons_drop, List.take_append_drop]
  obtain ⟨hbalanced, hnone⟩ := (solid_iff hsep).1 ha
  rw [hsplit] at hbalanced
  exact hnone _ _ hsplit (Balanced.of_surplus hbalanced heven)

/-- Behind a solid text and a separator the braces are counted anew. -/
theorem Shows.levelPoints_cons (hsep : NoBrace sep) (ha : Solid sep a)
    (h : s.Shows src (a ++ sep :: b)) : s.levelPoints src sep =
      (s.start + a.length) :: (mk (s.start + a.length + 1) s.stop).levelPoints src sep := by
  have hstop := h.stop_eq
  rw [List.length_append, List.length_cons] at hstop
  have hrange : List.range' s.start s.length = List.range' s.start a.length ++
      (s.start + a.length) :: List.range' (s.start + a.length + 1) b.length := by
    rw [length, show s.stop - s.start = a.length + (b.length + 1) by omega,
      ← List.range'_append_1, List.range'_succ]
  have hlength : (mk (s.start + a.length + 1) s.stop).length = b.length := by
    simp only [length]
    omega
  have hfirst := h.left.levelPoints_solid hsep ha
  simp only [levelPoints, length, Nat.add_sub_cancel_left] at hfirst
  have hhead : src[s.start + a.length]? = some sep := h.right.head
  have hmiddle : ((mk s.start (s.start + a.length)).text src).count '\x7b' =
      ((mk s.start (s.start + a.length)).text src).count '\x7d' := by
    rw [h.left.text_eq, count_eq_iff_surplus]
    exact ha.balanced.surplus_eq_zero
  rw [levelPoints, hrange, List.filter_append, hfirst, List.nil_append,
    List.filter_cons_of_pos (by simpa using ⟨hhead, hmiddle⟩), levelPoints, hlength]
  refine congrArg _ (List.filter_congr ?_)
  intro p hp
  obtain ⟨hle, hlt⟩ := List.mem_range'_1.1 hp
  obtain ⟨i, rfl⟩ := Nat.exists_eq_add_of_le hle
  -- What stands in front of the rest is even.
  have htext : (mk s.start (s.start + a.length + 1 + i)).text src = a ++ sep :: b.take i := by
    have htake := h.take (n := a.length + 1 + i) (by
      rw [List.length_append, List.length_cons]
      omega)
    rw [← Nat.add_assoc, ← Nat.add_assoc] at htake
    rw [htake.text_eq, Nat.add_assoc, List.take_length_add_append, Nat.add_comm 1 i,
      List.take_succ_cons]
  have hrest : (mk (s.start + a.length + 1) (s.start + a.length + 1 + i)).text src = b.take i :=
    (h.right.tail.take (by omega)).text_eq
  have heven : (a ++ sep :: b.take i).count '\x7b' = (a ++ sep :: b.take i).count '\x7d' ↔
      (b.take i).count '\x7b' = (b.take i).count '\x7d' := by
    rw [count_eq_iff_surplus, count_eq_iff_surplus, surplus_append, surplus_cons hsep,
      ha.balanced.surplus_eq_zero, Int.zero_add]
  rw [htext, hrest, decide_eq_decide, heven]

/-! ## The two ways of dividing -/

/-- The spans in front of, between and behind the points. -/
def divide (s : Span) : List Nat → List Span
  | [] => [s]
  | p :: points => ⟨s.start, p⟩ :: (mk (p + 1) s.stop).divide points

theorem length_divide (s : Span) (points : List Nat) :
    (s.divide points).length = points.length + 1 := by
  induction points generalizing s with
  | nil => rfl
  | cons p points ih => rw [divide, List.length_cons, ih, List.length_cons]

/-- Solid texts that are joined are divided at the points between them. -/
theorem Shows.parts_eq_divide (hsep : NoBrace sep) {texts : List Text} (hne : texts ≠ [])
    (hsolid : ∀ t ∈ texts, Solid sep t) (h : s.Shows src (joinWith [sep] texts)) :
    s.parts src (.ofText src.toList) sep = s.divide (s.levelPoints src sep) := by
  induction texts generalizing s with
  | nil => exact absurd rfl hne
  | cons a texts ih =>
      obtain ⟨ha, htexts⟩ := List.forall_mem_cons.1 hsolid
      cases texts with
      | nil =>
          have hone : s.Shows src a := h
          rw [hone.parts_solid ha, hone.levelPoints_solid hsep ha, divide]
      | cons b texts =>
          have hne : b :: texts ≠ [] := List.cons_ne_nil b texts
          rw [joinWith_cons hne] at h
          rw [h.parts_cons hsep ha, h.levelPoints_cons hsep ha, divide,
            ih hne htexts h.right.tail]

/-- A span whose braces belong together is divided at the separators before which as many
    of its braces open as close, and nowhere else.  So there is one part more than such
    separators, the parts joined by the separator are the text of the span, and the
    braces of every part belong together again. -/
theorem parts_at_level (hsep : NoBrace sep) (h : s.Whole src) :
    let parts := s.parts src (.ofText src.toList) sep
    let points := s.levelPoints src sep
    parts = s.divide points ∧
    joinWith [sep] (parts.map (·.text src)) = s.text src ∧
    (∀ p, p ∈ points ↔ s.start ≤ p ∧ p < s.stop ∧ src[p]? = some sep ∧
      ((mk s.start p).text src).count '\x7b' = ((mk s.start p).text src).count '\x7d') ∧
    points.Pairwise (· < ·) ∧ parts.length = points.length + 1 ∧
    ∀ part ∈ parts, part.Whole src ∧ Balanced (part.text src) := by
  intro parts points
  have hshow : s.Shows src (s.text src) := .of_le h.le h.size
  obtain ⟨texts, hne, hsolid, htext⟩ := (hshow.whole_iff.1 h).exists_joinWith sep
  rw [htext] at hshow ⊢
  have hdivide : parts = s.divide points := hshow.parts_eq_divide hsep hne hsolid
  have hparts : parts.map (·.text src) = texts := by
    rw [show parts = partsAt s.start texts from hshow.parts_joinWith hsep hne hsolid]
    exact hshow.map_text
  refine ⟨hdivide, by rw [hparts], fun p => mem_levelPoints_iff h.le, ?_, ?_, ?_⟩
  · exact List.Pairwise.filter _ List.pairwise_lt_range'
  · rw [hdivide, length_divide]
  · intro part hpart
    have hmem : part.text src ∈ texts := hparts ▸ List.mem_map_of_mem hpart
    have hbalanced := (hsolid _ hmem).balanced
    exact ⟨(hshow.part hpart).whole_iff.2 hbalanced, hbalanced⟩

/-- Braces that are left alone around the span do not matter, groups stand side by side
    and one in the other, and a part may be empty. -/
theorem parts_at_level_nested :
    let src : Source := "\x7dé|\x7ba|\x7bb\x7d|c\x7d\x7b|\x7d||d\x7b".toList.toArray
    let s : Span := ⟨1, 18⟩
    NoBrace '|' ∧ s.Whole src ∧ s.levelPoints src '|' = [2, 15, 16] ∧
      s.parts src (.ofText src.toList) '|' = [⟨1, 2⟩, ⟨3, 15⟩, ⟨16, 16⟩, ⟨17, 18⟩] := by
  intro src s
  have hsep : NoBrace '|' := by decide
  have hwhole : s.Whole src :=
    (Shows.whole_iff (.of_le (by decide) (by decide))).2 (by decide +kernel)
  have hpoints : s.levelPoints src '|' = [2, 15, 16] := by decide +kernel
  obtain ⟨hparts, -⟩ := parts_at_level hsep hwhole
  refine ⟨hsep, hwhole, hpoints, ?_⟩
  rw [hparts, hpoints]
  rfl

end Span
end StoryTemplate
