import StoryTemplate.Proofs.Anchor.Seams

/-! # Frames — what the anchors take out of a text

    An anchor gives way to its payload: the braces, the parameters and the layout
    around the payload are its frame.  Taking the anchors out of a text takes out the
    frames of all anchors that can be read in it, wherever they stand, and nothing
    else, so every character of what is left has a position in the text.  The route:

    * in a frame no other anchor opens (`Anchor.not_open_of_frames`), so what frames a
      position of a payload, or of the text behind an anchor, opens there
      (`isFramed_span`);
    * the positions outside all frames follow the recursion of the outline
      (`unframed_literal`, `unframed_anchor`);
    * so the outline has the characters at these positions, and its objects begin
      where the anchors opened.

    Main facts: `content_outline` (what is left is the text without the frames),
    `exists_anchor_of_object` (where the objects begin) and `joined_of_group` (a group
    that the text did not hold, unless as an anchor, was put together by taking out an
    anchor). -/

namespace StoryTemplate

/-! ## The frame of an anchor -/

/-- Whether the position belongs to the frame of an anchor, given where it opens and,
    with the anchor, where it closes: it stands before the payload or after it. -/
def Anchor.Frames (found : Anchor × Nat) (opened p : Nat) : Prop :=
  opened ≤ p ∧ p < found.1.payload.start ∨ found.1.payload.stop ≤ p ∧ p ≤ found.2

instance (found : Anchor × Nat) (opened p : Nat) : Decidable (Anchor.Frames found opened p) :=
  inferInstanceAs (Decidable (_ ∨ _))

/-- Whether the position stands in the frame of an anchor of the text. -/
def isFramed (t : Text) (p : Nat) : Bool :=
  (List.range t.length).any fun opened =>
    (Anchor.parse? t.toArray (.ofText t) opened).any fun found =>
      decide (Anchor.Frames found opened p)

/-- The positions of the text that stand in no frame. -/
def unframed (t : Text) : List Nat := (List.range t.length).filter fun p => !isFramed t p

/-- The characters of a span are those of its text. -/
theorem Span.Shows.exists_mem {s : Span} {src : Source} {t : Text} (h : s.Shows src t) {i : Nat}
    (hle : s.start ≤ i) (hlt : i < s.stop) : ∃ c ∈ t, src[i]? = some c := by
  obtain ⟨o, rfl⟩ := Nat.exists_eq_add_of_le hle
  have ho : o < t.length := by
    rw [h.stop_eq] at hlt
    omega
  exact ⟨t[o], List.getElem_mem ho, by rw [h.getElem? ho, List.getElem?_eq_getElem ho]⟩

/-- What is dropped from the end of a span is a space. -/
theorem Span.getElem?_of_dropSpace {s : Span} {src : Source} {i : Nat}
    (hle : (s.dropSpace src).stop ≤ i) (hlt : i < s.stop) : src[i]? = some ' ' := by
  rw [dropSpace] at hle
  split at hle
  · rename_i hspace
    simp only [Bool.and_eq_true, decide_eq_true_eq, Source.isAt, beq_iff_eq] at hspace
    dsimp only at hle
    rw [show i = s.stop - 1 by omega]
    exact hspace.2
  · exact absurd hlt (Nat.not_lt.2 hle)

namespace Anchor

variable {t : Text} {opened close : Nat} {anchor : Anchor}

/-- The payload lies within the braces. -/
theorem places_of_parse (h : parse? t.toArray (.ofText t) opened = some (anchor, close)) :
    opened < anchor.payload.start ∧ anchor.payload.start ≤ anchor.payload.stop ∧
      anchor.payload.stop ≤ close ∧ close < t.length := by
  refine ⟨(lt_of_parse h).2, (payload_intact h).le, ?_, lt_length_of_parse h⟩
  have hinner : (Span.mk (opened + 1) close).Intact t.toArray := .inner (parse_eq_some.1 h).1
  obtain ⟨r, -, -, rfl⟩ := exists_of_content hinner.shows_text (parse_eq_some.1 h).2
  exact Span.branch_stop_le _ _

/-- A frame begins where its anchor opens. -/
theorem Frames.le (h : parse? t.toArray (.ofText t) opened = some (anchor, close)) {p : Nat}
    (hp : Frames (anchor, close) opened p) : opened ≤ p := by
  obtain ⟨hstart, hpayload, -, -⟩ := places_of_parse h
  rcases hp with ⟨hle, -⟩ | ⟨hle, -⟩
  · exact hle
  · dsimp only at hle
    omega

/-- A frame ends where its anchor closes. -/
theorem Frames.le_close (h : parse? t.toArray (.ofText t) opened = some (anchor, close)) {p : Nat}
    (hp : Frames (anchor, close) opened p) : p ≤ close := by
  obtain ⟨-, hpayload, hstop, -⟩ := places_of_parse h
  rcases hp with ⟨-, hlt⟩ | ⟨-, hle⟩
  · dsimp only at hlt
    omega
  · exact hle

/-- A brace stands where an anchor opens. -/
theorem getElem?_of_parse (h : parse? t.toArray (.ofText t) opened = some (anchor, close)) :
    t[opened]? = some '\x7b' :=
  BraceMap.getElem?_of_close (parse_eq_some.1 h).1

/-- In the frame of an anchor no other brace opens. -/
theorem getElem?_ne_of_frames (h : parse? t.toArray (.ofText t) opened = some (anchor, close))
    {p : Nat} (hp : Frames (anchor, close) opened p) (hne : p ≠ opened) : t[p]? ≠ some '\x7b' := by
  have hclose := (parse_eq_some.1 h).1
  have hinner : (Span.mk (opened + 1) close).Intact t.toArray := .inner hclose
  have hshow := hinner.shows_text
  obtain ⟨r, hr, -, rfl⟩ := exists_of_content hshow (parse_eq_some.1 h).2
  rw [hr] at hshow
  -- A character of a class without braces opens nothing.
  have hclass : ∀ {c : Char}, NoBrace c → t.toArray[p]? = some c → t[p]? ≠ some '\x7b' := by
    intro c hc hget hbrace
    rw [List.getElem?_toArray, hbrace, Option.some.injEq] at hget
    exact hc.1 hget.symm
  have hrun : ∀ {s : Span} {u : Text} {test : Char → Bool}, s.Shows t.toArray (u.takeWhile test) →
      (∀ c, test c = true → NoBrace c) → s.start ≤ p → p < s.stop → t[p]? ≠ some '\x7b' := by
    intro s u test hs htest hle hlt
    obtain ⟨c, hc, hget⟩ := hs.exists_mem hle hlt
    exact hclass (htest c (List.mem_takeWhile_imp hc)) hget
  have hparams := shows_paramSpan hshow
  have hrest := shows_restSpan hshow
  rcases hp with ⟨hle, hlt⟩ | ⟨hle, hlt⟩
  · -- Before the payload stand `<`, white space, the parameters and white space.
    dsimp only [Span.branch] at hlt
    rw [Span.dropSpace_start] at hlt
    by_cases hfirst : p = opened + 1
    · subst hfirst
      exact hclass (by decide) hshow.head
    by_cases hlayout : p < (paramSpan t.toArray ⟨opened + 1, close⟩).start
    · have hbehind : opened + 2 ≤ p := by omega
      exact hrun (hshow.tail.run isBlank) (fun c => noBrace_of_isBlank) hbehind hlayout
    by_cases hparam : p < (paramSpan t.toArray ⟨opened + 1, close⟩).stop
    · exact hrun hparams (fun c => noBrace_of_isParamChar) (Nat.le_of_not_lt hlayout) hparam
    · exact hrun (hrest.run isBlank) (fun c => noBrace_of_isBlank) (Nat.le_of_not_lt hparam) hlt
  · -- After it stand perhaps a space, and the closing brace.
    dsimp only at hle hlt
    rcases Nat.lt_or_eq_of_le hlt with hlt | rfl
    · exact hclass (by decide) (Span.getElem?_of_dropSpace hle hlt)
    · rw [BraceMap.getElem?_close hclose]
      decide

/-- In the frame of an anchor no other anchor opens. -/
theorem not_open_of_frames (h : parse? t.toArray (.ofText t) opened = some (anchor, close))
    {p : Nat} (hp : Frames (anchor, close) opened p) (hne : p ≠ opened) :
    parse? t.toArray (.ofText t) p = none := by
  cases hparse : parse? t.toArray (.ofText t) p with
  | none => rfl
  | some found => exact absurd (getElem?_of_parse hparse) (getElem?_ne_of_frames h hp hne)

/-- The frame of an anchor in a part of a text, seen in the whole. -/
theorem frames_shift {found : Anchor × Nat} {opened p k : Nat} :
    Frames (found.1.shift k, found.2 + k) (opened + k) (p + k) ↔ Frames found opened p := by
  rw [Frames, Frames, shift, Span.shift]
  dsimp only
  omega

end Anchor

/-! ## Framed positions -/

variable {t u : Text} {opened close : Nat} {anchor : Anchor} {p : Nat}

theorem isFramed_iff : isFramed t p = true ↔ ∃ opened anchor close,
    Anchor.parse? t.toArray (.ofText t) opened = some (anchor, close) ∧
      Anchor.Frames (anchor, close) opened p := by
  rw [isFramed, List.any_eq_true]
  constructor
  · rintro ⟨opened, -, h⟩
    obtain ⟨⟨anchor, close⟩, hparse, hframes⟩ := (Option.any_eq_true _ _).1 h
    exact ⟨opened, anchor, close, hparse, of_decide_eq_true hframes⟩
  · rintro ⟨opened, anchor, close, hparse, hframes⟩
    obtain ⟨hopen, hstart, hstop, hclose⟩ := Anchor.places_of_parse hparse
    refine ⟨opened, List.mem_range.2 (by omega), ?_⟩
    rw [hparse, Option.any_some, decide_eq_true hframes]

/-- No anchor opens before the first opening. -/
theorem anchorOpen_le_of_parse
    (h : Anchor.parse? t.toArray (.ofText t) opened = some (anchor, close)) :
    anchorOpen t ≤ opened := by
  obtain ⟨before, r, after, ht, rfl, -⟩ := Anchor.exists_of_parse h
  exact anchorOpen_le_of_eq ht

/-- Before the first opening no position is framed. -/
theorem isFramed_of_lt (h : p < anchorOpen t) : isFramed t p = false := by
  rw [Bool.eq_false_iff]
  intro hframed
  obtain ⟨opened, anchor, close, hparse, hframes⟩ := isFramed_iff.1 hframed
  have hle := anchorOpen_le_of_parse hparse
  have hopen := Anchor.Frames.le hparse hframes
  omega

/-- An anchor of an intact span stands in the whole text. -/
theorem Anchor.parse_of_span {s : Span} (hs : s.Intact t.toArray) (hshow : s.Shows t.toArray u)
    (h : Anchor.parse? u.toArray (.ofText u) opened = some (anchor, close)) :
    Anchor.parse? t.toArray (.ofText t) (opened + s.start) =
      some (anchor.shift s.start, close + s.start) := by
  obtain ⟨hopen, hstart, hstop, hclose⟩ := Anchor.places_of_parse h
  rw [Anchor.parse_intact hs hshow (by omega), h]
  rfl

/-- If no anchor that opens before an intact span reaches into it with its frame, its
    positions are framed as those of its text. -/
theorem isFramed_span {s : Span} (hs : s.Intact t.toArray) (hshow : s.Shows t.toArray u)
    (hbefore : ∀ opened anchor close,
      Anchor.parse? t.toArray (.ofText t) opened = some (anchor, close) → opened < s.start →
        ∀ p, s.start ≤ p → p < s.stop → ¬ Anchor.Frames (anchor, close) opened p)
    (hp : p < u.length) : isFramed t (p + s.start) = isFramed u p := by
  have hstop := hshow.stop_eq
  rw [Bool.eq_iff_iff, isFramed_iff, isFramed_iff]
  constructor
  · rintro ⟨opened, anchor, close, hparse, hframes⟩
    have hle := Anchor.Frames.le hparse hframes
    have hstart : s.start ≤ opened := by
      by_contra hlt
      exact hbefore opened anchor close hparse (Nat.lt_of_not_le hlt) _ (Nat.le_add_left _ _)
        (by omega) hframes
    obtain ⟨o, rfl⟩ := Nat.exists_eq_add_of_le' hstart
    rw [Anchor.parse_intact hs hshow (by omega), Option.map_eq_some_iff] at hparse
    obtain ⟨⟨inner, close'⟩, hparse, heq⟩ := hparse
    rw [← heq] at hframes
    exact ⟨o, inner, close', hparse, Anchor.frames_shift.1 hframes⟩
  · rintro ⟨o, inner, close, hparse, hframes⟩
    exact ⟨_, _, _, Anchor.parse_of_span hs hshow hparse, Anchor.frames_shift.2 hframes⟩

/-! ## The positions that are left -/

/-- The numbers below a sum that pass a test. -/
theorem filter_range_add (test : Nat → Bool) (m n : Nat) :
    (List.range (m + n)).filter test = (List.range m).filter test ++
      ((List.range n).filter fun i => test (i + m)).map (· + m) := by
  rw [List.range_add, List.filter_append, List.filter_map]
  simp only [Function.comp_def, Nat.add_comm]

/-- Numbers that do not pass it can be left out. -/
theorem filter_range_of_le {test : Nat → Bool} {m n : Nat} (hle : m ≤ n)
    (h : ∀ i, m ≤ i → i < n → test i = false) :
    (List.range n).filter test = (List.range m).filter test := by
  obtain ⟨k, rfl⟩ := Nat.exists_eq_add_of_le hle
  have hnone : ((List.range k).filter fun i => test (i + m)) = [] := by
    refine List.filter_eq_nil_iff.2 fun i hi => ?_
    have hlt := List.mem_range.1 hi
    rw [h (i + m) (Nat.le_add_left _ _) (by omega)]
    exact Bool.false_ne_true
  rw [filter_range_add, hnone, List.map_nil, List.append_nil]

/-- Before the first opening all positions are left. -/
theorem filter_range_anchorOpen :
    ((List.range (anchorOpen t)).filter fun p => !isFramed t p) = List.range (anchorOpen t) := by
  refine List.filter_eq_self.2 fun p hp => ?_
  rw [isFramed_of_lt (List.mem_range.1 hp)]
  rfl

/-- In an intact span the positions that are left are those of its text, if no earlier
    anchor reaches into it. -/
theorem filter_isFramed_span {s : Span} (hs : s.Intact t.toArray) (hshow : s.Shows t.toArray u)
    (hbefore : ∀ opened anchor close,
      Anchor.parse? t.toArray (.ofText t) opened = some (anchor, close) → opened < s.start →
        ∀ p, s.start ≤ p → p < s.stop → ¬ Anchor.Frames (anchor, close) opened p) :
    ((List.range u.length).filter fun p => !isFramed t (p + s.start)) = unframed u := by
  refine List.filter_congr fun p hp => ?_
  rw [isFramed_span hs hshow hbefore (List.mem_range.1 hp)]

theorem Span.shows_drop {k : Nat} (hk : k ≤ t.length) :
    (Span.mk k t.length).Shows t.toArray (t.drop k) := by
  have hdrop := (Span.Shows.whole t).drop hk
  rwa [Nat.zero_add] at hdrop

theorem Span.intact_drop {k : Nat} (hk : k ≤ t.length) : (Span.mk k t.length).Intact t.toArray :=
  (Span.Intact.ofText t).suffix (Nat.zero_le k) hk

/-- Behind a position that no anchor reaches over, the positions that are left are those
    of the text there. -/
theorem unframed_drop {k : Nat} (hk : k ≤ t.length) (hbefore : ∀ opened anchor close,
    Anchor.parse? t.toArray (.ofText t) opened = some (anchor, close) → opened < k → close < k) :
    unframed t = ((List.range k).filter fun p => !isFramed t p) ++
      (unframed (t.drop k)).map (· + k) := by
  have hrest : ((List.range (t.drop k).length).filter fun p => !isFramed t (p + k)) =
      unframed (t.drop k) := by
    refine filter_isFramed_span (Span.intact_drop hk) (Span.shows_drop hk) ?_
    intro opened anchor close hparse hopen p hle hlt hframes
    have hclose := hbefore opened anchor close hparse hopen
    have hend := Anchor.Frames.le_close hparse hframes
    dsimp only at hle
    omega
  have hsplit := filter_range_add (fun p => !isFramed t p) k (t.drop k).length
  rw [List.length_drop, Nat.add_sub_cancel' hk, ← List.length_drop, hrest] at hsplit
  exact hsplit

/-- A text without an opening has no frames. -/
theorem unframed_plain (h : ¬ anchorOpen t < t.length) : unframed t = List.range t.length := by
  have heq : anchorOpen t = t.length := Nat.le_antisymm (anchorOpen_le t) (Nat.le_of_not_lt h)
  rw [unframed, ← heq]
  exact filter_range_anchorOpen

/-- An opening that is no anchor has no frame. -/
theorem unframed_literal (hlt : anchorOpen t < t.length)
    (hnone : Anchor.parse? t.toArray (.ofText t) (anchorOpen t) = none) :
    unframed t = List.range (anchorOpen t + 1) ++
      (unframed (t.drop (anchorOpen t + 1))).map (· + (anchorOpen t + 1)) := by
  -- No anchor opens up to the first opening.
  have hfirst : ∀ opened anchor close,
      Anchor.parse? t.toArray (.ofText t) opened = some (anchor, close) →
        anchorOpen t + 1 ≤ opened := by
    intro opened anchor close hparse
    refine Nat.lt_of_le_of_ne (anchorOpen_le_of_parse hparse) ?_
    rintro rfl
    rw [hnone] at hparse
    exact nomatch hparse
  rw [unframed_drop hlt fun opened anchor close hparse hopen =>
    absurd hopen (Nat.not_lt.2 (hfirst opened anchor close hparse)), List.filter_eq_self.2]
  intro p hp
  rw [Bool.not_eq_true', Bool.eq_false_iff]
  intro hframed
  obtain ⟨opened, anchor, close, hparse, hframes⟩ := isFramed_iff.1 hframed
  have hle := Anchor.Frames.le hparse hframes
  have hopen := hfirst opened anchor close hparse
  have hrange := List.mem_range.1 hp
  omega

/-- What an anchor leaves: the positions before it, those of its payload, and those
    behind it. -/
theorem unframed_anchor
    (hparse : Anchor.parse? t.toArray (.ofText t) (anchorOpen t) = some (anchor, close)) :
    unframed t = List.range (anchorOpen t) ++
      ((unframed (anchor.payload.text t.toArray)).map (· + anchor.payload.start) ++
        (unframed (t.drop (close + 1))).map (· + (close + 1))) := by
  obtain ⟨hopen, hstart, hstop, hclose⟩ := Anchor.places_of_parse hparse
  have hframed : ∀ p, Anchor.Frames (anchor, close) (anchorOpen t) p → (!isFramed t p) = false := by
    intro p hp
    rw [isFramed_iff.2 ⟨_, anchor, close, hparse, hp⟩]
    rfl
  -- The other anchors open in no frame of this one, so those before its end are in its payload.
  have hother : ∀ opened' anchor' close',
      Anchor.parse? t.toArray (.ofText t) opened' = some (anchor', close') →
        anchor' = anchor ∧ close' = close ∧ opened' = anchorOpen t ∨
          anchorOpen t < opened' ∧ ¬ Anchor.Frames (anchor, close) (anchorOpen t) opened' := by
    intro opened' anchor' close' hparse'
    rcases Nat.eq_or_lt_of_le (anchorOpen_le_of_parse hparse') with rfl | hlt
    · rw [hparse, Option.some.injEq, Prod.mk.injEq] at hparse'
      exact .inl ⟨hparse'.1.symm, hparse'.2.symm, rfl⟩
    · refine .inr ⟨hlt, fun hframes => ?_⟩
      rw [Anchor.not_open_of_frames hparse hframes hlt.ne'] at hparse'
      exact nomatch hparse'
  have hrest := unframed_drop (k := close + 1) hclose fun opened' anchor' close' hparse' hlt => by
    rcases hother opened' anchor' close' hparse' with ⟨-, rfl, -⟩ | ⟨hafter, hframes⟩
    · exact Nat.lt_succ_self _
    · have hinner : (Span.mk (anchorOpen t + 1) close).Intact t.toArray :=
        .inner (Anchor.parse_eq_some.1 hparse).1
      rw [Anchor.Frames] at hframes
      dsimp only at hframes
      have hinside := hinner.inside opened' close' hafter (by simp only; omega)
        (Anchor.parse_eq_some.1 hparse').1
      exact Nat.lt_succ_of_lt hinside
  have hpayload := filter_isFramed_span (Anchor.payload_intact hparse)
    (Anchor.payload_intact hparse).shows_text fun opened' anchor' close' hparse' hlt p hle hp => by
      rcases hother opened' anchor' close' hparse' with ⟨rfl, rfl, rfl⟩ | ⟨hafter, hframes⟩
      · rw [Anchor.Frames]
        dsimp only
        omega
      · rw [Anchor.Frames] at hframes
        dsimp only at hframes
        omega
  have hlen := (Anchor.payload_intact hparse).shows_text.stop_eq
  rw [hrest, filter_range_of_le (m := anchor.payload.stop) (by omega), hlen, filter_range_add,
    hpayload, filter_range_of_le hopen.le, filter_range_anchorOpen, List.append_assoc]
  · intro p hle hlt
    exact hframed p (.inl ⟨hle, hlt⟩)
  · intro p hle hlt
    exact hframed p (.inr ⟨hle, Nat.le_of_lt_succ hlt⟩)

/-! ## Taking the anchors out -/

/-- The characters of the text at the positions. -/
def charsAt (t : Text) (positions : List Nat) : Text := positions.filterMap (t[·]?)

theorem charsAt_append (t : Text) (a b : List Nat) :
    charsAt t (a ++ b) = charsAt t a ++ charsAt t b := List.filterMap_append

/-- The positions up to a number are those of the beginning of the text. -/
theorem charsAt_range (t : Text) (n : Nat) : charsAt t (List.range n) = t.take n := by
  induction n with
  | zero => rfl
  | succ n ih =>
      rw [List.range_succ, charsAt_append, ih, List.take_add_one]
      cases hget : t[n]? with
      | none => rw [charsAt, List.filterMap_cons_none hget]; rfl
      | some c => rw [charsAt, List.filterMap_cons_some hget]; rfl

/-- Positions in a span are positions in its text. -/
theorem charsAt_span {s : Span} (hshow : s.Shows t.toArray u) {positions : List Nat}
    (h : ∀ p ∈ positions, p < u.length) :
    charsAt t (positions.map (· + s.start)) = charsAt u positions := by
  induction positions with
  | nil => rfl
  | cons p positions ih =>
      obtain ⟨hp, hpositions⟩ := List.forall_mem_cons.1 h
      have hget : t[p + s.start]? = u[p]? := by
        rw [Nat.add_comm, ← List.getElem?_toArray]
        exact hshow.getElem? hp
      rw [List.map_cons, charsAt, charsAt, List.filterMap_cons, List.filterMap_cons, hget]
      cases u[p]? with
      | none => exact ih hpositions
      | some c => exact congrArg (List.cons c) (ih hpositions)

theorem charsAt_drop (t : Text) (k : Nat) (positions : List Nat) :
    charsAt t (positions.map (· + k)) = charsAt (t.drop k) positions := by
  rw [charsAt, charsAt, List.filterMap_map]
  congr 1
  funext p
  rw [List.getElem?_drop, Nat.add_comm]
  rfl

theorem lt_of_mem_unframed (h : p ∈ unframed t) : p < t.length :=
  List.mem_range.1 (List.mem_filter.1 h).1

/-- Every position that is left has its character. -/
theorem length_charsAt {positions : List Nat} (h : ∀ p ∈ positions, p < t.length) :
    (charsAt t positions).length = positions.length := by
  rw [charsAt, List.length_filterMap_eq_countP, List.countP_eq_length]
  intro p hp
  rw [List.getElem?_eq_getElem (h p hp)]
  rfl

/-- What is left of a text without its anchors are the characters that stand in no
    frame. -/
theorem content_outline (t : Text) : (outline t).content = charsAt t (unframed t) := by
  fun_induction outline t with
  | case1 t hlt hparse ih =>
      rw [Outline.content, ih, unframed_literal hlt hparse, charsAt_append, charsAt_range,
        charsAt_drop]
  | case2 t hlt anchor close hparse ihp ihr =>
      have hshow := (Anchor.payload_intact hparse).shows_text
      rw [Outline.content, Outline.content, ihp, ihr, unframed_anchor hparse, charsAt_append,
        charsAt_append, charsAt_range, charsAt_span hshow fun p => lt_of_mem_unframed,
        charsAt_drop]
  | case3 t hlt =>
      rw [Outline.content, Outline.content, List.append_nil, unframed_plain hlt, charsAt_range,
        List.take_length]

/-- Two letters around an anchor, and one in it. -/
example : unframed "a\x7b< k:v b \x7dc".toList = [0, 8, 11] := by decide +kernel

theorem length_content_outline (t : Text) : (outline t).content.length = (unframed t).length := by
  rw [content_outline, length_charsAt fun p => lt_of_mem_unframed]

/-! ## Where the objects begin -/

section Counting

variable {positions : List Nat} {k n : Nat}

theorem countP_map_add (positions : List Nat) (k n : Nat) :
    (positions.map (· + k)).countP (· < n + k) = positions.countP (· < n) := by
  rw [List.countP_map]
  refine List.countP_congr fun p _ => ?_
  simp

theorem countP_eq_length (h : ∀ p ∈ positions, p < n) :
    positions.countP (· < n) = positions.length :=
  List.countP_eq_length.2 fun p hp => decide_eq_true (h p hp)

theorem countP_eq_zero (h : ∀ p ∈ positions, n ≤ p) : positions.countP (· < n) = 0 :=
  List.countP_eq_zero.2 fun p hp hlt => Nat.not_lt.2 (h p hp) (of_decide_eq_true hlt)

theorem countP_map_eq_length (h : ∀ p ∈ positions, p + k < n) :
    (positions.map (· + k)).countP (· < n) = positions.length := by
  rw [countP_eq_length (List.forall_mem_map.2 h), List.length_map]

theorem countP_map_eq_zero (h : n ≤ k) : (positions.map (· + k)).countP (· < n) = 0 :=
  countP_eq_zero (List.forall_mem_map.2 fun _ _ => Nat.le_add_left_of_le h)

theorem countP_range (h : k ≤ n) : (List.range k).countP (· < n) = k := by
  rw [countP_eq_length fun p hp => Nat.lt_of_lt_of_le (List.mem_range.1 hp) h, List.length_range]

/-- In an increasing row the numbers below a bound come first. -/
theorem getElem?_lt_iff (h : positions.Pairwise (· < ·)) {i : Nat} (hget : positions[i]? = some p) :
    i < positions.countP (· < n) ↔ p < n := by
  induction positions generalizing i with
  | nil => exact nomatch hget
  | cons q positions ih =>
      obtain ⟨hq, hrest⟩ := List.pairwise_cons.1 h
      by_cases hlt : q < n
      · rw [List.countP_cons_of_pos (p := fun x => decide (x < n)) (decide_eq_true hlt)]
        cases i with
        | zero =>
            rw [List.getElem?_cons_zero, Option.some.injEq] at hget
            exact ⟨fun _ => hget ▸ hlt, fun _ => Nat.succ_pos _⟩
        | succ i =>
            rw [List.getElem?_cons_succ] at hget
            rw [Nat.succ_lt_succ_iff]
            exact ih hrest hget
      · have hzero : (q :: positions).countP (· < n) = 0 := by
          refine countP_eq_zero fun r hr => ?_
          rcases List.mem_cons.1 hr with rfl | hr
          · exact Nat.le_of_not_lt hlt
          · exact Nat.le_of_lt (Nat.lt_of_le_of_lt (Nat.le_of_not_lt hlt) (hq r hr))
        have hle : q ≤ p := by
          rcases List.mem_cons.1 (List.mem_of_getElem? hget) with rfl | hp
          · exact Nat.le_refl _
          · exact Nat.le_of_lt (hq p hp)
        rw [hzero]
        exact ⟨fun hi => absurd hi (Nat.not_lt_zero i), fun hp => absurd hp (by omega)⟩

end Counting

theorem pairwise_unframed (t : Text) : (unframed t).Pairwise (· < ·) :=
  List.pairwise_lt_range.filter _

/-- Up to the first opening all positions are left. -/
theorem countP_unframed_open
    (hparse : Anchor.parse? t.toArray (.ofText t) (anchorOpen t) = some (anchor, close)) :
    (unframed t).countP (· < anchorOpen t) = anchorOpen t := by
  obtain ⟨hopen, hstart, hstop, -⟩ := Anchor.places_of_parse hparse
  rw [unframed_anchor hparse, List.countP_append, List.countP_append,
    countP_range (Nat.le_refl _), countP_map_eq_zero hopen.le, countP_map_eq_zero (by omega)]
  rfl

/-- Up to a position of the payload they are those before the anchor, and then those of
    the payload. -/
theorem countP_unframed_payload
    (hparse : Anchor.parse? t.toArray (.ofText t) (anchorOpen t) = some (anchor, close))
    (hle : n ≤ (anchor.payload.text t.toArray).length) :
    (unframed t).countP (· < n + anchor.payload.start) =
      anchorOpen t + (unframed (anchor.payload.text t.toArray)).countP (· < n) := by
  obtain ⟨hopen, hstart, hstop, -⟩ := Anchor.places_of_parse hparse
  have hlen := (Anchor.payload_intact hparse).shows_text.stop_eq
  rw [unframed_anchor hparse, List.countP_append, List.countP_append, countP_range (by omega),
    countP_map_add, countP_map_eq_zero (by omega)]
  rfl

/-- Up to a position behind the anchor all those of the payload are among them. -/
theorem countP_unframed_behind
    (hparse : Anchor.parse? t.toArray (.ofText t) (anchorOpen t) = some (anchor, close)) (n : Nat) :
    (unframed t).countP (· < n + (close + 1)) =
      anchorOpen t + ((unframed (anchor.payload.text t.toArray)).length +
        (unframed (t.drop (close + 1))).countP (· < n)) := by
  obtain ⟨hopen, hstart, hstop, -⟩ := Anchor.places_of_parse hparse
  have hlen := (Anchor.payload_intact hparse).shows_text.stop_eq
  rw [unframed_anchor hparse, List.countP_append, List.countP_append, countP_range (by omega),
    countP_map_eq_length ?_, countP_map_add]
  intro p hp
  have hlt := lt_of_mem_unframed hp
  omega

/-- Up to a position behind an opening that is no anchor, they are those up to the
    opening, and then those behind it. -/
theorem countP_unframed_literal (hlt : anchorOpen t < t.length)
    (hnone : Anchor.parse? t.toArray (.ofText t) (anchorOpen t) = none) (n : Nat) :
    (unframed t).countP (· < n + (anchorOpen t + 1)) =
      anchorOpen t + 1 + (unframed (t.drop (anchorOpen t + 1))).countP (· < n) := by
  rw [unframed_literal hlt hnone, List.countP_append, countP_map_add,
    countP_range (Nat.le_add_left _ _)]

/-- An anchor of the end of a text stands in the whole text. -/
theorem Anchor.parse_of_drop {k : Nat} (hk : k ≤ t.length)
    (h : Anchor.parse? (t.drop k).toArray (.ofText (t.drop k)) opened = some (anchor, close)) :
    Anchor.parse? t.toArray (.ofText t) (opened + k) = some (anchor.shift k, close + k) :=
  Anchor.parse_of_span (Span.intact_drop hk) (Span.shows_drop hk) h

theorem Outline.objects_eq (o : Outline) (position : Nat) :
    o.objects position = (o.objects 0).map (AnchoredObject.later position) := by
  have hadd := o.objects_add 0 position
  rwa [Nat.zero_add] at hadd

/-- An object begins behind as many characters as are left in front of its anchor. -/
theorem exists_anchor_of_object (t : Text) : ∀ object ∈ (outline t).objects 0,
    ∃ opened anchor close, Anchor.parse? t.toArray (.ofText t) opened = some (anchor, close) ∧
      object.position = (unframed t).countP (· < opened) := by
  fun_induction outline t with
  | case1 t hlt hparse ih =>
      intro object hobject
      rw [Outline.objects, Outline.objects_eq, Nat.zero_add, List.length_take,
        Nat.min_eq_left hlt] at hobject
      obtain ⟨inner, hinner, rfl⟩ := List.mem_map.1 hobject
      obtain ⟨opened, anchor, close, hfound, hposition⟩ := ih inner hinner
      refine ⟨_, _, _, Anchor.parse_of_drop hlt hfound, ?_⟩
      rw [countP_unframed_literal hlt hparse, Nat.add_comm, ← hposition]
      rfl
  | case2 t hlt anchor close hparse ihp ihr =>
      intro object hobject
      rw [Outline.objects, Outline.objects, Nat.zero_add, List.length_take,
        Nat.min_eq_left hlt.le] at hobject
      rcases List.mem_cons.1 hobject with rfl | hobject
      · exact ⟨_, anchor, close, hparse, (countP_unframed_open hparse).symm⟩
      rcases List.mem_append.1 hobject with hobject | hobject
      · rw [Outline.objects_eq] at hobject
        obtain ⟨inner, hinner, rfl⟩ := List.mem_map.1 hobject
        obtain ⟨opened, found, foundClose, hfound, hposition⟩ := ihp inner hinner
        have hpayload := Anchor.payload_intact hparse
        obtain ⟨hfirst, hsecond, hthird, hlast⟩ := Anchor.places_of_parse hfound
        refine ⟨_, _, _, Anchor.parse_of_span hpayload hpayload.shows_text hfound, ?_⟩
        rw [countP_unframed_payload hparse (by omega), ← hposition]
        exact Nat.add_comm _ _
      · rw [Outline.objects_eq] at hobject
        obtain ⟨inner, hinner, rfl⟩ := List.mem_map.1 hobject
        obtain ⟨opened, found, foundClose, hfound, hposition⟩ := ihr inner hinner
        refine ⟨_, _, _, Anchor.parse_of_drop (Anchor.lt_length_of_parse hparse) hfound, ?_⟩
        rw [countP_unframed_behind hparse, ← hposition, ← length_content_outline]
        show inner.position + _ = _
        omega
  | case3 t hlt =>
      intro object hobject
      cases hobject

/-! ## Groups that come together -/

/-- Whether two characters of what is left of a text were brought together by taking out
    an anchor: in the text an anchor opens between them. -/
def Joined (t : Text) (first last : Nat) : Prop :=
  ∃ i j opened anchor close, (unframed t)[first]? = some i ∧ (unframed t)[last]? = some j ∧
    Anchor.parse? t.toArray (.ofText t) opened = some (anchor, close) ∧ i < opened ∧ opened < j

/-- The braces of a group that the text did not hold, unless as an anchor, were brought
    together by taking out an anchor. -/
theorem joined_of_group {q : Text → Prop}
    (h : Lacks (fun body => q body ∧ ¬ Anchor.IsBody body) t) {before body after : Text}
    (heq : (outline t).content = before ++ '\x7b' :: (body ++ '\x7d' :: after))
    (hbody : Balanced body) (hq : q body) :
    Joined t before.length (before.length + 1 + body.length) := by
  obtain ⟨object, hobject, hlt, hle⟩ := exists_object h heq hbody hq
  obtain ⟨opened, anchor, close, hparse, hposition⟩ := exists_anchor_of_object t object hobject
  rw [hposition] at hlt hle
  have hlen := length_content_outline t
  rw [heq] at hlen
  simp only [List.length_append, List.length_cons] at hlen
  have hfirst : before.length < (unframed t).length := by omega
  have hlast : before.length + 1 + body.length < (unframed t).length := by omega
  have hi := List.getElem?_eq_getElem hfirst
  have hj := List.getElem?_eq_getElem hlast
  refine ⟨_, _, opened, anchor, close, hi, hj, hparse,
    (getElem?_lt_iff (pairwise_unframed t) hi).1 hlt, ?_⟩
  refine Nat.lt_of_le_of_ne (Nat.le_of_not_lt fun hbefore => ?_) ?_
  · exact Nat.not_lt.2 hle ((getElem?_lt_iff (pairwise_unframed t) hj).2 hbefore)
  · -- The opening of the anchor is framed, and so is not left.
    intro hopened
    have hleft := (List.mem_filter.1 (List.mem_of_getElem? hj)).2
    obtain ⟨hstart, -, -, -⟩ := Anchor.places_of_parse hparse
    rw [← hopened, isFramed_iff.2 ⟨opened, anchor, close, hparse, .inl ⟨Nat.le_refl _, hstart⟩⟩]
      at hleft
    exact nomatch hleft

end StoryTemplate
