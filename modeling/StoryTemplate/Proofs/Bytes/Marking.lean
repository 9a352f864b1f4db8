import StoryTemplate.Proofs.Anchor.Outline
import StoryTemplate.Proofs.Bytes.Anchor
import StoryTemplate.Proofs.Text.Cuts

/-! # Marking by bytes

    Marking a text works on a stack of steps, with the spans counted in bytes.  A span to
    be scanned has to be intact; a payload can be closed if its entry and its first
    segment exist.  Entries and segments are only ever added, so what can be closed once
    can still be closed later, and every placeholder keeps its entry.

    Main facts: `markStep?_eq` (a step), `ready_step` (which keeps the invariant),
    `mark?_eq` and `resolve?_eq` (marking and resolving are in place) and
    `safe_of_markReaches` (every step that is ever on the stack is safe). -/

namespace StoryTemplate

open String (utf8Len)

/-- The step with its span counted in bytes. -/
def MarkStep.inBytes (src : Source) : MarkStep → MarkStep
  | .scan span => .scan (span.inBytes src)
  | .close slot first => .close slot first

namespace Bytes

/-! ## The work -/

/-- Gives an entry the text of the segments from the number `first` on. -/
def closeAnchor? (marking : Marking) (slot first : Nat) : Checked Marking :=
  if slot < marking.table.size ∧ first ≤ marking.segments.size then
    some (marking.closeAnchor slot first)
  else none

/-- Does what comes first of the work; there is no next state if none is left. -/
def markStep? (s : Text) (braces : BraceMap) (marking : Marking) :
    List MarkStep → Checked (Option (Marking × List MarkStep))
  | [] => some none
  | .close slot first :: work => do return some (← closeAnchor? marking slot first, work)
  | .scan span :: work => do
      let content ← slice? s span
      match find? ['\x7b', '<'] content with
      | none => return some (marking.pushText content, work)
      | some offset =>
          let opened := span.start + offset
          match ← anchor? s braces opened with
          | some (anchor, close) =>
              let before ← slice? s ⟨span.start, opened⟩
              let marked := (marking.pushText before).pushAnchor anchor.params
              return some (marked, .scan anchor.payload ::
                .close marking.table.size marked.segments.size ::
                  .scan ⟨close + 1, span.stop⟩ :: work)
          | none =>
              let literal ← slice? s ⟨span.start, opened + 1⟩
              return some (marking.pushText literal, .scan ⟨opened + 1, span.stop⟩ :: work)

/-- Does all the work. -/
noncomputable def markRun? (s : Text) (braces : BraceMap) (marking : Marking)
    (work : List MarkStep) : Checked Marking :=
  Checked.loop (fun (marking, work) => do
    match ← markStep? s braces marking work with
    | none => return .inl marking
    | some next => return .inr next) (marking, work)

/-- Adds the text at the end with its anchors marked. -/
noncomputable def markText? (marking : Marking) (s : Text) : Checked Marking :=
  markRun? s (bracesOf s) marking [.scan ⟨0, utf8Len s⟩]

/-- Adds a segment at the end, with the anchors of its text marked. -/
noncomputable def markSegment? (marking : Marking) : Segment → Checked Marking
  | .text content => markText? marking content
  | .placeholder slot =>
      some { marking with segments := marking.segments.push (.placeholder slot) }

/-- Marks every anchor in the text that is left, and tells how many there were. -/
noncomputable def mark? (marking : Marking) : Checked (Marking × Nat) := do
  let marked ← marking.segments.foldlM markSegment? ⟨#[], marking.table⟩
  let count ← back? 0 marked.table.size marking.table.size
  return (marked, count)

/-- Moves past a segment: counts its characters, or records how many came before a
    placeholder. -/
def locate? (place : Nat × Array Nat) : Segment → Checked (Nat × Array Nat)
  | .text content => some (place.1 + content.length, place.2)
  | .placeholder slot =>
      if slot < place.2.size then some (place.1, place.2.setIfInBounds slot place.1) else none

/-- The text without the placeholders, and the anchored objects. -/
def resolve? (marking : Marking) : Checked (Text × List AnchoredObject) := do
  let (_, positions) ←
    marking.segments.foldlM locate? (0, Array.replicate marking.table.size 0)
  return (marking.segments.toList.flatMap Segment.content,
    List.zipWith (fun entry position => ⟨entry.text, position, entry.params⟩)
      marking.table.toList positions.toList)

/-- The states of the work on a text that is added to a marking. -/
inductive MarkReaches (marking : Marking) (s : Text) : Marking → List MarkStep → Prop
  | start : MarkReaches marking s marking [.scan ⟨0, utf8Len s⟩]
  | step {marked next : Marking} {work rest : List MarkStep}
      (reached : MarkReaches marking s marked work)
      (h : markStep? s (bracesOf s) marked work = some (some (next, rest))) :
      MarkReaches marking s next rest

/-! ## Entries and segments -/

/-- Every placeholder has its entry. -/
def Numbered (marking : Marking) : Prop :=
  ∀ slot, .placeholder slot ∈ marking.segments.toList → slot < marking.table.size

/-- Entries and segments are added to the first marking, and placeholders have entries
    afterwards if they had them before. -/
structure Grows (marking marked : Marking) : Prop where
  table : marking.table.size ≤ marked.table.size
  segments : marking.segments.size ≤ marked.segments.size
  numbered : Numbered marking → Numbered marked

variable {marking marked next : Marking}

theorem Grows.refl (marking : Marking) : Grows marking marking :=
  ⟨Nat.le_refl _, Nat.le_refl _, id⟩

theorem Grows.trans (h : Grows marking marked) (h' : Grows marked next) : Grows marking next :=
  ⟨Nat.le_trans h.table h'.table, Nat.le_trans h.segments h'.segments, h'.numbered ∘ h.numbered⟩

theorem grows_pushText (marking : Marking) (s : Text) : Grows marking (marking.pushText s) := by
  rw [Marking.pushText]
  by_cases hs : s = []
  · rw [if_pos hs]
    exact .refl marking
  · rw [if_neg hs]
    have hadded : Grows marking { marking with segments := marking.segments.push (.text s) } := by
      refine ⟨Nat.le_refl _, ?_, fun h slot hslot => ?_⟩
      · rw [Array.size_push]
        exact Nat.le_succ _
      · rw [Array.toList_push, List.mem_append, List.mem_singleton] at hslot
        rcases hslot with hbefore | heq
        · exact h slot hbefore
        · cases heq
    cases hlast : marking.segments.back? with
    | none => exact hadded
    | some last =>
        cases last with
        | placeholder slot => exact hadded
        | text content =>
            refine ⟨Nat.le_refl _, ?_, fun h slot hslot => ?_⟩
            · rw [Array.size_push, Array.size_pop]
              omega
            · rw [Array.toList_push, Array.toList_pop, List.mem_append, List.mem_singleton] at hslot
              rcases hslot with hbefore | heq
              · exact h slot ((List.dropLast_sublist _).mem hbefore)
              · cases heq

theorem grows_pushAnchor (marking : Marking) (params : Dict Text) :
    Grows marking (marking.pushAnchor params) := by
  rw [Marking.pushAnchor]
  refine ⟨?_, ?_, fun h slot hslot => ?_⟩
  · rw [Array.size_push]
    exact Nat.le_succ _
  · rw [Array.size_push]
    exact Nat.le_succ _
  · rw [Array.toList_push, List.mem_append, List.mem_singleton] at hslot
    rw [Array.size_push]
    rcases hslot with hbefore | heq
    · exact Nat.lt_succ_of_lt (h slot hbefore)
    · rw [Segment.placeholder.inj heq]
      exact Nat.lt_succ_self _

theorem grows_closeAnchor (marking : Marking) (slot first : Nat) :
    Grows marking (marking.closeAnchor slot first) := by
  have hsize : (marking.closeAnchor slot first).table.size = marking.table.size :=
    Array.size_modify
  exact ⟨Nat.le_of_eq hsize.symm, Nat.le_refl _, fun h other hother => hsize ▸ h other hother⟩

/-! ## One step -/

/-- The step can be done to the marking: a span has a property that a scan needs, an entry
    and a first segment exist. -/
inductive Ready (scannable : Span → Prop) (marking : Marking) : MarkStep → Prop
  | scan {span : Span} (h : scannable span) : Ready scannable marking (.scan span)
  | close {slot first : Nat} (entry : slot < marking.table.size)
      (segment : first ≤ marking.segments.size) : Ready scannable marking (.close slot first)

variable {scannable : Span → Prop} {src : Source} {work rest : List MarkStep} {t : Text}

/-- What is ready stays ready while the marking grows. -/
theorem Ready.of_grows {step : MarkStep} (h : Ready scannable marking step)
    (hgrows : Grows marking marked) : Ready scannable marked step := by
  cases h with
  | scan h => exact .scan h
  | close entry segment =>
      exact .close (Nat.lt_of_lt_of_le entry hgrows.table)
        (Nat.le_trans segment hgrows.segments)

theorem find?_anchor_of_not_lt (h : ¬ anchorOpen t < t.length) : find? ['\x7b', '<'] t = none := by
  have hnone : ¬ ['\x7b', '<'] <:+: t := by
    rintro ⟨before, after, rfl⟩
    rw [List.append_assoc] at h
    have hle := anchorOpen_le_of_eq (show before ++ (['\x7b', '<'] ++ after) = _ from rfl)
    have hlen : (before ++ (['\x7b', '<'] ++ after)).length = before.length + (after.length + 2) :=
      List.length_append
    omega
  rw [find?, breakOn_eq_none_iff.2 hnone]
  rfl

theorem find?_anchor (h : anchorOpen t < t.length) :
    find? ['\x7b', '<'] t = some (utf8Len (t.take (anchorOpen t))) := by
  obtain ⟨before, r, rfl, hlen⟩ := exists_of_anchorOpen_lt h
  have hcut : breakOn ['\x7b', '<'] (before ++ '\x7b' :: '<' :: r) = some (before, r) := by
    refine breakOn_eq_some_iff.2 ⟨by rw [List.append_assoc]; rfl, fun before' after' heq => ?_⟩
    rw [← hlen]
    exact anchorOpen_le_of_eq (heq.trans (List.append_assoc ..))
  rw [find?, hcut, hlen, List.take_left]
  rfl

/-- An anchor opens with a character of one byte. -/
theorem byteOffset_anchorOpen {span : Span} (hshow : span.Shows src t)
    (ho : anchorOpen t < t.length) :
    src.byteOffset (anchorOpen t + span.start + 1) =
      src.byteOffset (anchorOpen t + span.start) + 1 := by
  obtain ⟨before, r, rfl, hlen⟩ := exists_of_anchorOpen_lt ho
  rw [hlen, Nat.add_comm before.length]
  exact Source.byteOffset_succ hshow.right.head

/-- A step by bytes is in place and does what the step by characters does. -/
theorem markStep?_eq (h : ∀ step ∈ work, Ready (·.Intact src) marking step) :
    markStep? src.toList (bracesOf src.toList) marking (work.map (·.inBytes src)) =
      some ((Marking.step src (.ofText src.toList) marking work).map fun next =>
        (next.1, next.2.map (·.inBytes src))) := by
  cases work with
  | nil => rfl
  | cons step work =>
      rw [List.map_cons]
      cases h step (.head _) with
      | @close slot first entry segment =>
          have hclose : closeAnchor? marking slot first = some (marking.closeAnchor slot first) :=
            if_pos ⟨entry, segment⟩
          exact Checked.bind_of_eq hclose _
      | @scan span hspan =>
          have hshow := hspan.shows_text
          generalize span.text src = t at hshow
          rw [MarkStep.inBytes, markStep?, Checked.bind_of_eq hshow.slice?_eq]
          by_cases ho : anchorOpen t < t.length
          · have hnext := byteOffset_anchorOpen hshow ho
            have hbefore : (Span.mk span.start (anchorOpen t + span.start)).Shows src
                (t.take (anchorOpen t)) := by
              rw [Nat.add_comm (anchorOpen t)]
              exact hshow.take (anchorOpen_le t)
            have hliteral : (Span.mk span.start (anchorOpen t + span.start + 1)).Shows src
                (t.take (anchorOpen t + 1)) := by
              rw [Nat.add_comm (anchorOpen t), Nat.add_assoc]
              exact hshow.take ho
            have hplace : (span.inBytes src).start + utf8Len (t.take (anchorOpen t)) =
                src.byteOffset (anchorOpen t + span.start) := hbefore.inBytes_stop.symm
            rw [find?_anchor ho, Marking.step_open hshow ho]
            dsimp only
            rw [hplace, Checked.bind_of_eq (anchor?_eq src _)]
            cases hparse : Anchor.parse? src (.ofText src.toList) (anchorOpen t + span.start) with
            | none =>
                dsimp only [Option.map_none]
                rw [← hnext]
                exact Checked.bind_of_eq hliteral.slice?_eq _
            | some found =>
                obtain ⟨anchor, close⟩ := found
                have hclose := byteOffset_close_succ (Anchor.parse_eq_some.1 hparse).1
                dsimp only [Option.map_some]
                rw [← hclose]
                exact Checked.bind_of_eq hbefore.slice?_eq _
          · rw [find?_anchor_of_not_lt ho, Marking.step_plain hshow ho]
            rfl

/-- A step leaves steps that can be done, to a marking that has grown. -/
theorem ready_step (h : ∀ step ∈ work, Ready (·.Intact src) marking step)
    (hstep : Marking.step src (.ofText src.toList) marking work = some (marked, rest)) :
    Grows marking marked ∧ ∀ step ∈ rest, Ready (·.Intact src) marked step := by
  cases work with
  | nil => exact nomatch hstep
  | cons step work =>
      obtain ⟨hfirst, hwork⟩ := List.forall_mem_cons.1 h
      -- What is below the step stays ready.
      have hbelow : Grows marking marked → ∀ step ∈ work, Ready (·.Intact src) marked step :=
        fun hgrows step hmem => (hwork step hmem).of_grows hgrows
      cases hfirst with
      | @close slot first entry segment =>
          obtain ⟨rfl, rfl⟩ := Prod.mk.inj (Option.some.inj hstep)
          exact ⟨grows_closeAnchor _ _ _, hbelow (grows_closeAnchor _ _ _)⟩
      | @scan span hspan =>
          have hshow := hspan.shows_text
          generalize span.text src = t at hshow
          have hstop := hshow.stop_eq
          by_cases ho : anchorOpen t < t.length
          · rw [Marking.step_open hshow ho] at hstep
            cases hparse : Anchor.parse? src (.ofText src.toList) (anchorOpen t + span.start) with
            | none =>
                rw [hparse] at hstep
                obtain ⟨rfl, rfl⟩ := Prod.mk.inj (Option.some.inj hstep)
                have hgrows := grows_pushText marking (t.take (anchorOpen t + 1))
                refine ⟨hgrows, List.forall_mem_cons.2 ⟨.scan (hspan.suffix ?_ ?_), hbelow hgrows⟩⟩
                  <;> omega
            | some found =>
                obtain ⟨anchor, close⟩ := found
                rw [hparse] at hstep
                dsimp only at hstep
                obtain ⟨rfl, rfl⟩ := Prod.mk.inj (Option.some.inj hstep)
                have hopened := (Anchor.lt_of_parse hparse).1
                have hbraces := (Anchor.parse_eq_some.1 hparse).1
                have hclose := hspan.inside _ _ (by omega) (by omega) hbraces
                have htext := grows_pushText marking (t.take (anchorOpen t))
                have hgrows := htext.trans (grows_pushAnchor _ anchor.params)
                have hentry : marking.table.size < ((marking.pushText
                    (t.take (anchorOpen t))).pushAnchor anchor.params).table.size := by
                  rw [Marking.pushAnchor, Array.size_push, Marking.pushText_table]
                  exact Nat.lt_succ_self _
                refine ⟨hgrows, List.forall_mem_cons.2 ⟨.scan (Anchor.payload_intact hparse), ?_⟩⟩
                refine List.forall_mem_cons.2 ⟨.close hentry (Nat.le_refl _), ?_⟩
                exact List.forall_mem_cons.2 ⟨.scan (hspan.suffix (by omega) hclose), hbelow hgrows⟩
          · rw [Marking.step_plain hshow ho] at hstep
            obtain ⟨rfl, rfl⟩ := Prod.mk.inj (Option.some.inj hstep)
            exact ⟨grows_pushText _ _, hbelow (grows_pushText _ _)⟩

/-! ## Marking a text -/

theorem markRun?_eq (h : ∀ step ∈ work, Ready (·.Intact src) marking step) :
    markRun? src.toList (bracesOf src.toList) marking (work.map (·.inBytes src)) =
      some (Marking.run src (.ofText src.toList) marking work) := by
  refine Checked.loop_eq_some_iff.2 ?_
  fun_induction Marking.run src (.ofText src.toList) marking work with
  | case1 marking work hstep =>
      refine .last ((Checked.bind_of_eq (markStep?_eq h) _).trans ?_)
      rw [hstep]
      rfl
  | case2 marking work marked rest hstep ih =>
      refine .next ((Checked.bind_of_eq (markStep?_eq h) _).trans ?_) (ih (ready_step h hstep).2)
      rw [hstep]
      rfl

theorem grows_run (h : ∀ step ∈ work, Ready (·.Intact src) marking step) :
    Grows marking (Marking.run src (.ofText src.toList) marking work) := by
  fun_induction Marking.run src (.ofText src.toList) marking work with
  | case1 marking work hstep => exact .refl marking
  | case2 marking work marked rest hstep ih =>
      obtain ⟨hgrows, hrest⟩ := ready_step h hstep
      exact hgrows.trans (ih hrest)

theorem ready_start (marking : Marking) (s : Text) :
    ∀ step ∈ [MarkStep.scan ⟨0, s.toArray.size⟩], Ready (·.Intact s.toArray) marking step :=
  List.forall_mem_singleton.2 (.scan (.ofText s))

theorem inBytes_whole (s : Text) :
    [MarkStep.scan ⟨0, s.toArray.size⟩].map (·.inBytes s.toArray) = [.scan ⟨0, utf8Len s⟩] := by
  rw [List.map_singleton, MarkStep.inBytes, Span.inBytes, Source.byteOffset_zero,
    Source.byteOffset_size]

theorem markText?_eq (marking : Marking) (s : Text) :
    markText? marking s = some (marking.markText s) := by
  rw [markText?, ← inBytes_whole]
  exact markRun?_eq (ready_start marking s)

theorem grows_markText (marking : Marking) (s : Text) : Grows marking (marking.markText s) :=
  grows_run (ready_start marking s)

/-- Every state of the work by bytes is one of the work by characters. -/
theorem exists_of_markReaches {s : Text} (h : MarkReaches marking s marked work) :
    ∃ counted : List MarkStep, (∀ step ∈ counted, Ready (·.Intact s.toArray) marked step) ∧
      work = counted.map (·.inBytes s.toArray) := by
  induction h with
  | start => exact ⟨_, ready_start marking s, (inBytes_whole s).symm⟩
  | step reached hstep ih =>
      obtain ⟨counted, hready, rfl⟩ := ih
      have hmap := Option.some.inj ((markStep?_eq hready).symm.trans hstep)
      obtain ⟨⟨next, rest⟩, hcounted, hnext⟩ := Option.map_eq_some_iff.1 hmap
      obtain ⟨rfl, rfl⟩ := Prod.mk.inj hnext
      exact ⟨rest, (ready_step hready hcounted).2, rfl⟩

/-- No state of the work has a next step out of place; every step that is ever on the
    stack can be done, and the spans to be scanned are safe for reading anchors. -/
theorem safe_of_markReaches {s : Text} (h : MarkReaches marking s marked work) :
    (markStep? s (bracesOf s) marked work).isSome = true ∧
    ∀ step ∈ work, Ready (Safe s (anchor? s (bracesOf s)) Anchor.places) marked step := by
  obtain ⟨counted, hready, rfl⟩ := exists_of_markReaches h
  refine ⟨Option.isSome_of_eq_some (markStep?_eq hready),
    List.forall_mem_map.2 fun step hstep => ?_⟩
  cases hready step hstep with
  | scan hspan => exact .scan (safe_anchors hspan)
  | close entry segment => exact .close entry segment

/-! ## Marking and resolving -/

theorem markSegment?_eq : markSegment? = fun marking segment =>
    some (marking.markSegment segment) := by
  funext marking segment
  cases segment with
  | text content => exact markText?_eq marking content
  | placeholder slot => rfl

/-- Segments whose placeholders have entries let the marking grow. -/
theorem grows_foldl_markSegment {segments : List Segment}
    (h : ∀ slot, .placeholder slot ∈ segments → slot < marking.table.size) :
    Grows marking (segments.foldl Marking.markSegment marking) := by
  induction segments generalizing marking with
  | nil => exact .refl marking
  | cons segment segments ih =>
      have hsegment : Grows marking (marking.markSegment segment) := by
        cases segment with
        | text content => exact grows_markText marking content
        | placeholder slot =>
            refine ⟨Nat.le_refl _, ?_, fun hnumbered other hother => ?_⟩
            · rw [Marking.markSegment, Array.size_push]
              exact Nat.le_succ _
            · rw [Marking.markSegment, Array.toList_push, List.mem_append, List.mem_singleton]
                at hother
              rcases hother with hbefore | heq
              · exact hnumbered other hbefore
              · exact h other (heq ▸ .head _)
      refine hsegment.trans (ih fun slot hslot => ?_)
      exact Nat.lt_of_lt_of_le (h slot (.tail _ hslot)) hsegment.table

theorem grows_mark (h : Numbered marking) :
    Grows ⟨#[], marking.table⟩
      (marking.segments.foldl Marking.markSegment ⟨#[], marking.table⟩) := by
  rw [← Array.foldl_toList]
  exact grows_foldl_markSegment h

/-- Marking what is left is in place. -/
theorem mark?_eq (h : Numbered marking) : mark? marking = some marking.mark := by
  have hfold : marking.segments.foldlM markSegment? ⟨#[], marking.table⟩ =
      some (marking.segments.foldl Marking.markSegment ⟨#[], marking.table⟩) := by
    rw [markSegment?_eq]
    exact Array.foldlM_pure
  have hcount := back?_eq (Nat.sub_add_cancel (grows_mark h).table) (Nat.zero_le _)
  rw [mark?, Checked.bind_of_eq hfold, Checked.bind_of_eq hcount]
  rfl

/-- After marking, every placeholder has its entry. -/
theorem numbered_mark (h : Numbered marking) : Numbered marking.mark.1 :=
  (grows_mark h).numbered fun _ hslot => nomatch hslot

theorem foldlM_locate? {segments : List Segment} {place : Nat × Array Nat}
    (h : ∀ slot, .placeholder slot ∈ segments → slot < place.2.size) :
    segments.foldlM locate? place = some (segments.foldl Marking.locate place) := by
  induction segments generalizing place with
  | nil => rfl
  | cons segment segments ih =>
      have hlocate : locate? place segment = some (Marking.locate place segment) ∧
          (Marking.locate place segment).2.size = place.2.size := by
        cases segment with
        | text content => exact ⟨rfl, rfl⟩
        | placeholder slot => exact ⟨if_pos (h slot (.head _)), Array.size_setIfInBounds⟩
      rw [List.foldlM_cons, Checked.bind_of_eq hlocate.1, List.foldl_cons]
      exact ih fun slot hslot => hlocate.2 ▸ h slot (.tail _ hslot)

/-- Resolving is in place. -/
theorem resolve?_eq (h : Numbered marking) : resolve? marking = some marking.resolve := by
  have hfold : marking.segments.foldlM locate? (0, Array.replicate marking.table.size 0) =
      some (marking.segments.foldl Marking.locate (0, Array.replicate marking.table.size 0)) := by
    rw [← Array.foldlM_toList, ← Array.foldl_toList]
    refine foldlM_locate? fun slot hslot => ?_
    rw [Array.size_replicate]
    exact h slot hslot
  rw [resolve?, Checked.bind_of_eq hfold]
  rfl

end Bytes
end StoryTemplate
