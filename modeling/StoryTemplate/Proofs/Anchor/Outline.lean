import StoryTemplate.Anchor.Marking
import StoryTemplate.Proofs.Anchor.Locality

/-! # Outlines — the anchors of a text as a tree

    Marking works on a stack of steps over one text.  The outline of a text has
    the same anchors as a tree: text, and anchors whose payloads are outlines
    again, each payload and each rest read as a text of its own.

    Main facts: `run_scan` (a span on the stack adds the outline of its text,
    and then the work below it is done) and `outline_induction` (outlines in
    terms of text alone, without positions). -/

namespace StoryTemplate

/-- What is found in a text, from left to right. -/
inductive Outline
  | nil
  | text (content : Text) (rest : Outline)
  | anchor (params : Dict Text) (payload rest : Outline)

/-! ## Where anchors open -/

/-- How many characters stand before the first `\x7b<`. -/
def anchorOpen : Text → Nat
  | [] => 0
  | c :: r => if c = '\x7b' ∧ r.head? = some '<' then 0 else anchorOpen r + 1

theorem anchorOpen_le (t : Text) : anchorOpen t ≤ t.length := by
  induction t with
  | nil => exact Nat.le_refl 0
  | cons c r ih =>
      rw [anchorOpen]
      by_cases hopen : c = '\x7b' ∧ r.head? = some '<'
      · rw [if_pos hopen]
        exact Nat.zero_le _
      · rw [if_neg hopen]
        exact Nat.succ_le_succ ih

/-- The two characters stand where they are found. -/
theorem exists_of_anchorOpen_lt {t : Text} (h : anchorOpen t < t.length) :
    ∃ before r, t = before ++ '\x7b' :: '<' :: r ∧ anchorOpen t = before.length := by
  induction t with
  | nil => exact absurd h (Nat.lt_irrefl 0)
  | cons c r ih =>
      rw [anchorOpen] at h ⊢
      by_cases hopen : c = '\x7b' ∧ r.head? = some '<'
      · obtain ⟨rfl, hr⟩ := hopen
        obtain ⟨r', rfl⟩ := List.head?_eq_some_iff.1 hr
        exact ⟨[], r', rfl, if_pos ⟨rfl, rfl⟩⟩
      · rw [if_neg hopen] at h ⊢
        obtain ⟨before, r', rfl, hlen⟩ := ih (Nat.lt_of_succ_lt_succ h)
        exact ⟨c :: before, r', rfl, congrArg Nat.succ hlen⟩

/-- Nowhere before do they stand. -/
theorem anchorOpen_le_of_eq {t before r : Text} (h : t = before ++ '\x7b' :: '<' :: r) :
    anchorOpen t ≤ before.length := by
  induction before generalizing t with
  | nil =>
      subst h
      exact Nat.le_refl 0
  | cons c before ih =>
      subst h
      rw [List.cons_append, anchorOpen]
      by_cases hopen : c = '\x7b' ∧ (before ++ '\x7b' :: '<' :: r).head? = some '<'
      · rw [if_pos hopen]
        exact Nat.zero_le _
      · rw [if_neg hopen]
        exact Nat.succ_le_succ (ih rfl)

theorem anchorOpen_lt {before r : Text}
    (h : anchorOpen (before ++ '\x7b' :: r) = before.length) :
    anchorOpen (before ++ '\x7b' :: r) < (before ++ '\x7b' :: r).length := by
  rw [h, List.length_append, List.length_cons]
  omega

/-- What opens in a text opens there whatever follows. -/
theorem anchorOpen_append_of_lt {t : Text} (h : anchorOpen t < t.length) (u : Text) :
    anchorOpen (t ++ u) = anchorOpen t := by
  induction t with
  | nil => exact absurd h (Nat.lt_irrefl 0)
  | cons c r ih =>
      rw [List.cons_append, anchorOpen, anchorOpen]
      rw [anchorOpen] at h
      by_cases hopen : c = '\x7b' ∧ r.head? = some '<'
      · obtain ⟨r', rfl⟩ := List.head?_eq_some_iff.1 hopen.2
        rw [if_pos hopen, List.cons_append, List.head?_cons, if_pos ⟨hopen.1, rfl⟩]
      · rw [if_neg hopen] at h ⊢
        have hlt : anchorOpen r < r.length := Nat.lt_of_succ_lt_succ h
        obtain ⟨d, r', rfl⟩ := List.exists_cons_of_length_pos (Nat.zero_lt_of_lt hlt)
        rw [ih hlt, List.cons_append, List.head?_cons]
        exact if_neg hopen

/-- If the text is closed, nothing opens at its end either. -/
theorem anchorOpen_append_of_closed {t : Text} (ht : Closed t) (h : ¬ anchorOpen t < t.length)
    (u : Text) : anchorOpen (t ++ u) = t.length + anchorOpen u := by
  induction t with
  | nil => exact (Nat.zero_add _).symm
  | cons c r ih =>
      have hr : Closed r := ht.of_append (s := [c])
      rw [anchorOpen] at h
      by_cases hopen : c = '\x7b' ∧ r.head? = some '<'
      · rw [if_pos hopen] at h
        exact absurd (Nat.succ_pos _) h
      · rw [if_neg hopen] at h
        have hrest := ih hr fun hlt => h (Nat.succ_lt_succ hlt)
        have hopen' : ¬ (c = '\x7b' ∧ (r ++ u).head? = some '<') := by
          rintro ⟨rfl, hhead⟩
          cases r with
          | nil =>
              obtain ⟨close, hclose⟩ := ht 0 rfl
              exact nomatch hclose
          | cons d r => exact hopen ⟨rfl, hhead⟩
        rw [List.cons_append, anchorOpen, if_neg hopen', hrest, List.length_cons,
          Nat.add_right_comm]

namespace Span.Shows

/-- Whether an anchor may open is a matter of two characters. -/
theorem opensAt_eq {src : Source} {stop pos : Nat} {c : Char} {r : Text}
    (h : (Span.mk pos stop).Shows src (c :: r)) :
    Anchor.opensAt src stop pos = decide (c = '\x7b' ∧ r.head? = some '<') := by
  have hc : src.isAt '\x7b' pos = decide (c = '\x7b') := by
    rw [Source.isAt, h.head]
    by_cases heq : c = '\x7b' <;> simp [heq]
  have hr : (decide (pos + 1 < stop) && src.isAt '<' (pos + 1)) = (r.head? == some '<') :=
    h.tail.startsWith_eq '<'
  rw [Anchor.opensAt, Bool.and_assoc, hc, hr, Bool.decide_and, beq_eq_decide]

/-- A search for the opening of an anchor in a span is one in its text. -/
theorem find_opensAt {s : Span} {src : Source} {t : Text} (h : s.Shows src t) :
    s.find (Anchor.opensAt src s.stop) = s.start + anchorOpen t := by
  have hlen : s.length = t.length := by
    rw [Span.length, h.stop_eq, Nat.add_sub_cancel_left]
  rw [Span.find, hlen]
  obtain ⟨start, stop⟩ := s
  dsimp only
  induction t generalizing start with
  | nil => rfl
  | cons c r ih =>
      have hstop := h.stop_eq
      rw [List.length_cons, seek, h.opensAt_eq, anchorOpen]
      by_cases hopen : c = '\x7b' ∧ r.head? = some '<'
      · rw [decide_eq_true hopen, if_pos rfl, if_pos hopen]
        rfl
      · rw [decide_eq_false hopen, if_neg Bool.false_ne_true, if_neg hopen,
          ih (start + 1) h.tail (by
            rw [Span.length]
            simp only [List.length_cons] at hstop ⊢
            omega)]
        omega

end Span.Shows

/-! ## The outline of a text -/

/-- The outline of a text: the text before the first opening of an anchor, the
    anchor if one can be read there, and the rest. -/
def outline (t : Text) : Outline :=
  if anchorOpen t < t.length then
    match _h : Anchor.parse? t.toArray (.ofText t) (anchorOpen t) with
    | none => .text (t.take (anchorOpen t + 1)) (outline (t.drop (anchorOpen t + 1)))
    | some (anchor, close) =>
        .text (t.take (anchorOpen t)) (.anchor anchor.params
          (outline (anchor.payload.text t.toArray)) (outline (t.drop (close + 1))))
  else .text t .nil
termination_by t.length
decreasing_by
  · rw [List.length_drop]
    omega
  · have hlt := (Anchor.lt_of_parse _h).2
    rw [Span.text, Array.length_toList, Array.size_extract, List.size_toArray]
    omega
  · rw [List.length_drop]
    omega

variable {t : Text}

theorem outline_plain (h : ¬ anchorOpen t < t.length) : outline t = .text t .nil := by
  rw [outline, if_neg h]

theorem outline_literal (h : anchorOpen t < t.length)
    (hparse : Anchor.parse? t.toArray (.ofText t) (anchorOpen t) = none) :
    outline t = .text (t.take (anchorOpen t + 1)) (outline (t.drop (anchorOpen t + 1))) := by
  rw [outline, if_pos h]
  split
  · rfl
  · rename_i hsome
    rw [hparse] at hsome
    exact nomatch hsome

theorem outline_anchor {anchor : Anchor} {close : Nat} (h : anchorOpen t < t.length)
    (hparse : Anchor.parse? t.toArray (.ofText t) (anchorOpen t) = some (anchor, close)) :
    outline t = .text (t.take (anchorOpen t)) (.anchor anchor.params
      (outline (anchor.payload.text t.toArray)) (outline (t.drop (close + 1)))) := by
  rw [outline, if_pos h]
  split
  · rename_i hnone
    rw [hparse] at hnone
    exact nomatch hnone
  · rename_i hsome
    rw [hparse, Option.some.injEq, Prod.mk.injEq] at hsome
    obtain ⟨rfl, rfl⟩ := hsome
    rfl

/-! ## Marking adds outlines -/

/-- Adds what is found at the end of a marked text. -/
def Outline.addTo : Outline → Marking → Marking
  | .nil, marking => marking
  | .text content rest, marking => rest.addTo (marking.pushText content)
  | .anchor params payload rest, marking =>
      let marked := marking.pushAnchor params
      rest.addTo ((payload.addTo marked).closeAnchor marking.table.size marked.segments.size)

namespace Marking

theorem run_eq (src : Source) (braces : BraceMap) (marking : Marking) (work : List MarkStep) :
    run src braces marking work = match step src braces marking work with
      | none => marking
      | some (marked, rest) => run src braces marked rest := by
  rw [run]
  split <;> rename_i h <;> rw [h]

/-- What a step does with a span in which an anchor may open. -/
theorem step_open {src : Source} {span : Span} (hshow : span.Shows src t)
    (ho : anchorOpen t < t.length) (marking : Marking) (work : List MarkStep) :
    step src (.ofText src.toList) marking (.scan span :: work) =
      match Anchor.parse? src (.ofText src.toList) (anchorOpen t + span.start) with
      | some (anchor, close) =>
          let marked := (marking.pushText (t.take (anchorOpen t))).pushAnchor anchor.params
          some (marked, .scan anchor.payload :: .close marking.table.size marked.segments.size ::
            .scan ⟨close + 1, span.stop⟩ :: work)
      | none => some (marking.pushText (t.take (anchorOpen t + 1)),
          .scan ⟨anchorOpen t + span.start + 1, span.stop⟩ :: work) := by
  have hfind : span.find (Anchor.opensAt src span.stop) = anchorOpen t + span.start := by
    rw [Nat.add_comm]
    exact hshow.find_opensAt
  have hbefore : Span.text ⟨span.start, anchorOpen t + span.start⟩ src =
      t.take (anchorOpen t) := by
    rw [Nat.add_comm]
    exact (hshow.take (anchorOpen_le t)).text_eq
  have hliteral : Span.text ⟨span.start, anchorOpen t + span.start + 1⟩ src =
      t.take (anchorOpen t + 1) := by
    rw [Nat.add_comm (anchorOpen t), Nat.add_assoc]
    exact (hshow.take ho).text_eq
  have hstop := hshow.stop_eq
  simp only [step]
  rewrite [hfind, if_pos (by omega), hbefore, hliteral]
  cases Anchor.parse? src (.ofText src.toList) (anchorOpen t + span.start) with
  | none => rfl
  | some found => rfl

/-- What a step does with a span in which no anchor may open. -/
theorem step_plain {src : Source} {span : Span} (hshow : span.Shows src t)
    (ho : ¬ anchorOpen t < t.length) (marking : Marking) (work : List MarkStep) :
    step src (.ofText src.toList) marking (.scan span :: work) =
      some (marking.pushText t, work) := by
  have hfind := hshow.find_opensAt
  have hstop := hshow.stop_eq
  simp only [step]
  rw [hfind, if_neg (by omega), hshow.text_eq]

theorem pushText_table (marking : Marking) (s : Text) :
    (marking.pushText s).table = marking.table := by
  rw [pushText]
  by_cases hs : s = []
  · rw [if_pos hs]
  · rw [if_neg hs]
    split <;> rfl

/-- A span on the stack adds the outline of its text; then the work below it is
    done. -/
theorem run_scan {src : Source} {span : Span} (hspan : span.Intact src)
    (hshow : span.Shows src t) (marking : Marking) (work : List MarkStep) :
    run src (.ofText src.toList) marking (.scan span :: work) =
      run src (.ofText src.toList) ((outline t).addTo marking) work := by
  induction hn : t.length using Nat.strongRecOn generalizing t span marking work with
  | ind n ih =>
      subst hn
      by_cases ho : anchorOpen t < t.length
      · -- What follows position `k` of the text is outlined as a text of its own.
        have hrest : ∀ {k : Nat}, k ≤ t.length → 0 < k → ∀ (marking : Marking) (work : List MarkStep),
            run src (.ofText src.toList) marking (.scan ⟨k + span.start, span.stop⟩ :: work) =
              run src (.ofText src.toList) ((outline (t.drop k)).addTo marking) work := by
          intro k hk hpos marking work
          have hdrop := hshow.drop hk
          rw [Nat.add_comm span.start k] at hdrop
          have hstart : span.start ≤ k + span.start := Nat.le_add_left _ _
          exact ih _ (by rw [List.length_drop]; omega)
            (hspan.suffix hstart hdrop.start_le) hdrop marking work rfl
        have hstep := step_open hshow ho marking work
        have hread := Anchor.parse_intact hspan hshow ho
        cases hparse : Anchor.parse? t.toArray (.ofText t) (anchorOpen t) with
        | none =>
            rw [hparse, Option.map_none] at hread
            rw [hread] at hstep
            dsimp only at hstep
            rw [run_eq, hstep, outline_literal ho hparse]
            dsimp only
            rw [Nat.add_right_comm, hrest ho (Nat.succ_pos _), Outline.addTo]
        | some found =>
            obtain ⟨anchor, close⟩ := found
            -- The payload is a span of the whole source, and a text of its own.
            have htext := (Anchor.payload_intact hparse).shows_text
            have hlt := (Anchor.lt_of_parse hparse).2
            have hlen := htext.stop_eq
            have hsize := htext.stop_le
            have hclose : close < t.length := Anchor.lt_length_of_parse hparse
            rw [List.size_toArray] at hsize
            rw [hparse, Option.map_some] at hread
            have hpayload : (anchor.payload.shift span.start).Intact src :=
              Anchor.payload_intact hread
            rw [hread] at hstep
            dsimp only [Anchor.shift] at hstep
            rw [run_eq, hstep, outline_anchor ho hparse]
            dsimp only
            rw [ih _ (by omega) hpayload (hshow.window.shows_of htext) _ _ rfl, run_eq]
            dsimp only [step]
            rw [Nat.add_right_comm, hrest hclose (Nat.succ_pos _), Outline.addTo, Outline.addTo]
            rw [pushText_table]
      · rw [run_eq, step_plain hshow ho, outline_plain ho]
        rfl

/-- Marking a text adds its outline. -/
theorem markText_eq (marking : Marking) (t : Text) :
    marking.markText t = (outline t).addTo marking := by
  have hrun := run_scan (.ofText t) (Span.Shows.whole t) marking []
  rw [markText]
  refine hrun.trans ?_
  rw [run_eq]
  rfl

end Marking

/-! ## Outlines without positions -/

/-- An opening that is no anchor is text. -/
theorem outline_open {before r : Text}
    (hopen : anchorOpen (before ++ '\x7b' :: '<' :: r) = before.length)
    (hnone : ∀ body after, '<' :: r = body ++ '\x7d' :: after → Balanced body →
      ¬ Anchor.IsBody body) :
    outline (before ++ '\x7b' :: '<' :: r) = .text (before ++ ['\x7b']) (outline ('<' :: r)) := by
  have hlt := anchorOpen_lt hopen
  cases hparse : Anchor.parse? (before ++ '\x7b' :: '<' :: r).toArray (.ofText _)
      (anchorOpen (before ++ '\x7b' :: '<' :: r)) with
  | none =>
      rw [outline_literal hlt hparse, hopen, List.take_length_add_append, List.drop_length_add_append]
      rfl
  | some found =>
      obtain ⟨before', r', after, heq, hlen, -, hr, hacc, -⟩ := Anchor.exists_of_parse hparse
      obtain ⟨-, hrest⟩ := List.append_inj heq (hopen.symm.trans hlen.symm)
      have hbody : Balanced ('<' :: r') := .append (s := ['<']) (by decide) hr
      exact absurd ⟨r', rfl, hacc⟩ (hnone ('<' :: r') after (List.cons.inj hrest).2 hbody)

/-- An anchor has its payload and the text after it outlined. -/
theorem outline_group {before r after : Text}
    (hopen : anchorOpen (before ++ '\x7b' :: '<' :: (r ++ '\x7d' :: after)) = before.length)
    (hr : Balanced r) (hacc : Anchor.Accepts r) :
    outline (before ++ '\x7b' :: '<' :: (r ++ '\x7d' :: after)) =
      .text before (.anchor (Anchor.readParams (Anchor.paramText r))
        (outline (Anchor.payloadText r)) (outline after)) := by
  have hbody : Balanced ('<' :: r) := .append (s := ['<']) (by decide) hr
  have hsome := Anchor.parse_isSome before hbody ⟨r, rfl, hacc⟩ after
  obtain ⟨⟨found, close⟩, hparse⟩ := Option.isSome_iff_exists.1 hsome
  obtain ⟨before', r', after', heq, hlen, rfl, hr', -, hparams, hpayload⟩ :=
    Anchor.exists_of_parse hparse
  obtain ⟨rfl, hrest⟩ := List.append_inj heq hlen.symm
  obtain ⟨rfl, rfl⟩ := hr.close_unique hr' (List.cons.inj (List.cons.inj hrest).2).2
  have hshape : before ++ '\x7b' :: '<' :: (r ++ '\x7d' :: after) =
      before ++ '\x7b' :: '<' :: (r ++ ['\x7d']) ++ after := by simp
  have hdrop : (before ++ '\x7b' :: '<' :: (r ++ '\x7d' :: after)).drop
      (before.length + r.length + 2 + 1) = after := by
    rw [hshape]
    exact List.drop_left' (by simp; omega)
  have hlt := anchorOpen_lt hopen
  rw [← hopen] at hparse
  rw [List.cons_append] at hpayload
  rw [outline_anchor hlt hparse, hparams, hpayload, hopen, hdrop, List.take_left]

/-- Outlines in terms of text: without an opening there is text only, an opening
    that is no anchor is text, and an anchor has its payload and the text after
    it outlined. -/
theorem outline_induction {motive : Text → Outline → Prop}
    (plain : ∀ t, ¬ anchorOpen t < t.length → motive t (.text t .nil))
    (literal : ∀ before r, anchorOpen (before ++ '\x7b' :: '<' :: r) = before.length →
      (∀ body after, '<' :: r = body ++ '\x7d' :: after → Balanced body → ¬ Anchor.IsBody body) →
      motive ('<' :: r) (outline ('<' :: r)) →
      motive (before ++ '\x7b' :: '<' :: r) (.text (before ++ ['\x7b']) (outline ('<' :: r))))
    (anchor : ∀ before r after,
      anchorOpen (before ++ '\x7b' :: '<' :: (r ++ '\x7d' :: after)) = before.length →
      Balanced r → Anchor.Accepts r →
      motive (Anchor.payloadText r) (outline (Anchor.payloadText r)) →
      motive after (outline after) →
      motive (before ++ '\x7b' :: '<' :: (r ++ '\x7d' :: after))
        (.text before (.anchor (Anchor.readParams (Anchor.paramText r))
          (outline (Anchor.payloadText r)) (outline after))))
    (t : Text) : motive t (outline t) := by
  induction hn : t.length using Nat.strongRecOn generalizing t with
  | ind n ih =>
      subst hn
      by_cases ho : anchorOpen t < t.length
      · obtain ⟨before, r, rfl, hlen⟩ := exists_of_anchorOpen_lt ho
        by_cases hgroup : ∃ body after, '<' :: r = body ++ '\x7d' :: after ∧ Balanced body ∧
          Anchor.IsBody body
        · obtain ⟨_, after, hr, hbody, r', rfl, hacc⟩ := hgroup
          obtain rfl : r = r' ++ '\x7d' :: after := (List.cons.inj hr).2
          have hr' : Balanced r' := hbody.of_append_right (u := ['<']) (by decide)
          have hlt := (Anchor.payloadText_infix r').length_le
          have htext : (before ++ '\x7b' :: '<' :: (r' ++ '\x7d' :: after)).length =
              before.length + r'.length + after.length + 3 := by
            simp only [List.length_append, List.length_cons]
            omega
          rw [outline_group hlen hr' hacc]
          exact anchor before r' after hlen hr' hacc
            (ih _ (by rw [htext]; omega) _ rfl) (ih _ (by rw [htext]; omega) _ rfl)
        · have hnone : ∀ body after, '<' :: r = body ++ '\x7d' :: after → Balanced body →
              ¬ Anchor.IsBody body :=
            fun body after hr hbody hanchor => hgroup ⟨body, after, hr, hbody, hanchor⟩
          have hshort : ('<' :: r).length < (before ++ '\x7b' :: '<' :: r).length := by
            simp only [List.length_append, List.length_cons]
            omega
          rw [outline_open hlen hnone]
          exact literal before r hlen hnone (ih _ hshort _ rfl)
      · rw [outline_plain ho]
        exact plain t ho

end StoryTemplate
