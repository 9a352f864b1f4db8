import StoryTemplate.Proofs.Anchor.Located
import StoryTemplate.Proofs.Template.Choices

/-! # Meaning — the text and the objects of a passage

    A passage means its text, with every anchor replaced by its payload, and an
    object for each anchor.  A payload loses the white space in front, and what
    lies in it moves forward by as much.

    Main facts: `outline_flush` (text that does not begin with white space does not
    once its anchors are taken out) and `Passage.outlinesTo_print` (the outline of
    a printed passage has its text and objects, whatever text follows). -/

namespace StoryTemplate

namespace AnchoredObject

/-- The object with so many characters in front of the text left out. -/
def earlier (n : Nat) (object : AnchoredObject) : AnchoredObject :=
  { object with position := object.position - n }

theorem earlier_later (n : Nat) : earlier n ∘ later n = id := by
  funext object
  show earlier n (later n object) = object
  rw [later, earlier, Nat.add_sub_cancel]

end AnchoredObject

open AnchoredObject

/-- The number of characters of white space in front. -/
def blanks (s : Text) : Nat := (s.takeWhile isBlank).length

namespace Passage

/-- The text of a passage. -/
def content : Passage → Text
  | .literal content => content.text
  | .append first second => first.content ++ second.content
  | .anchor _ payload => trimStart payload.content

/-- An object for each anchor, in the order in which they begin. -/
def objects : Passage → List AnchoredObject
  | .literal _ => []
  | .append first second => first.objects ++ second.objects.map (later first.content.length)
  | .anchor params payload =>
      ⟨trimStart payload.content, 0, params.toDict⟩ ::
        payload.objects.map (earlier (blanks payload.content))

/-- The payload of each anchor has some character that is no white space. -/
def Filled : Passage → Prop
  | .literal _ => True
  | .append first second => first.Filled ∧ second.Filled
  | .anchor _ payload => isBlankText payload.content = false ∧ payload.Filled

end Passage

/-! ## Texts that do not begin with white space -/

section Flushing

variable {s t : Text}

theorem Flush.of_append (h : Flush (s ++ t)) : Flush s := by
  cases s with
  | nil => rfl
  | cons c r => exact h

theorem Flush.append (h : Flush s) (hne : s ≠ []) : Flush (s ++ t) := by
  obtain ⟨c, r, rfl⟩ := List.exists_cons_of_ne_nil hne
  exact h

theorem flush_branchText (s : Text) : Flush (branchText s) := by
  obtain ⟨v, hv⟩ := dropLastSpace_begins (trimStart s)
  have hflush : Flush (trimStart s) := startsWith_trimStart s
  rw [← hv] at hflush
  exact hflush.of_append

/-- White space in front is what is trimmed. -/
theorem trimStart_append (hs : ∀ c ∈ s, isBlank c = true) (ht : Flush t) :
    trimStart (s ++ t) = t ∧ blanks (s ++ t) = s.length := by
  have hblanks := takeWhile_append_stop hs (head?_of_startsWith ht)
  exact ⟨trimStart_blank hs ht, congrArg List.length hblanks⟩

/-- Taking out the anchors leaves no white space in front where there was none. -/
theorem outline_flush (t : Text) (h : Flush t) : Flush (outline t).content := by
  induction t using outline_induction with
  | plain t hopen =>
      rw [Outline.content, Outline.content, List.append_nil]
      exact h
  | literal before r hopen hnone ih =>
      rw [Outline.content]
      refine Flush.append ?_ (by simp)
      have hshape : before ++ '\x7b' :: '<' :: r = before ++ ['\x7b'] ++ '<' :: r := by simp
      rw [hshape] at h
      exact h.of_append
  | anchor before r after hopen hr hacc ihp ihr =>
      rw [Outline.content, Outline.content]
      cases before with
      | nil =>
          rw [List.nil_append]
          refine Flush.append (ihp (flush_branchText _)) fun hnil => ?_
          have hfilled := (outline_not_blank (Anchor.payloadText r)).1 hacc.2.2
          rw [hnil] at hfilled
          cases hfilled
      | cons c before => exact h

end Flushing

/-! ## Outlines of parts -/

/-- The outline of the text has the text and the objects, whatever text follows. -/
def OutlinesTo (s content : Text) (objects : List AnchoredObject) : Prop :=
  ∀ u, (outline (s ++ u)).content = content ++ (outline u).content ∧
    ∀ position, (outline (s ++ u)).objects position =
      objects.map (later position) ++ (outline u).objects (position + content.length)

section Outlining

variable {s t content content' : Text} {objects objects' : List AnchoredObject}

theorem OutlinesTo.append (hs : OutlinesTo s content objects) (ht : OutlinesTo t content' objects') :
    OutlinesTo (s ++ t) (content ++ content') (objects ++ objects'.map (later content.length)) := by
  intro u
  obtain ⟨hcontent, hobjects⟩ := hs (t ++ u)
  obtain ⟨hcontent', hobjects'⟩ := ht u
  rw [List.append_assoc]
  constructor
  · rw [hcontent, hcontent', List.append_assoc]
  · intro position
    rw [hobjects, hobjects', List.map_append, List.map_map, later_later, List.length_append,
      List.append_assoc, Nat.add_assoc, Nat.add_comm position content.length]

/-- By itself the text has the same outline. -/
theorem OutlinesTo.alone (h : OutlinesTo s content objects) :
    (outline s).content = content ∧ ∀ position, (outline s).objects position =
      objects.map (later position) := by
  have hnil : outline [] = .text [] .nil := outline_plain (Nat.lt_irrefl 0)
  obtain ⟨hcontent, hobjects⟩ := h []
  rw [List.append_nil, hnil] at hcontent hobjects
  constructor
  · rw [hcontent]
    exact List.append_nil content
  · intro position
    rw [hobjects]
    exact List.append_nil _

/-- Text in which no anchor opens, nor at its end, is outlined as text. -/
theorem outlinesTo_of_anchorOpen (hopen : ∀ u, anchorOpen (s ++ u) = s.length + anchorOpen u) :
    OutlinesTo s s [] := by
  intro u
  induction u using outline_induction with
  | plain u hu =>
      have hplain : ¬ anchorOpen (s ++ u) < (s ++ u).length := by
        rw [hopen, List.length_append]
        omega
      rw [outline_plain hplain]
      exact ⟨List.append_assoc _ _ _, fun position => rfl⟩
  | literal before r hu hnone ih =>
      have hbrace : anchorOpen (s ++ before ++ '\x7b' :: '<' :: r) = (s ++ before).length := by
        rw [List.append_assoc, hopen, hu, List.length_append]
      rw [← List.append_assoc, outline_open hbrace hnone]
      constructor
      · simp [Outline.content]
      · intro position
        simp [Outline.objects, Nat.add_assoc]
  | anchor before r after hu hr hacc ihp ihr =>
      have hbrace : anchorOpen (s ++ before ++ '\x7b' :: '<' :: (r ++ '\x7d' :: after)) =
          (s ++ before).length := by
        rw [List.append_assoc, hopen, hu, List.length_append]
      rw [← List.append_assoc, outline_group hbrace hr hacc]
      constructor
      · simp [Outline.content]
      · intro position
        simp [Outline.objects, Nat.add_assoc]

/-- Text without an opening brace is outlined as text. -/
theorem outlinesTo_text (h : ∀ c ∈ s, c ≠ '\x7b') : OutlinesTo s s [] := by
  refine outlinesTo_of_anchorOpen fun u => ?_
  induction s with
  | nil => exact (Nat.zero_add _).symm
  | cons c r ih =>
      obtain ⟨hc, hr⟩ := List.forall_mem_cons.1 h
      rw [List.cons_append, anchorOpen, if_neg fun hboth => hc hboth.1, ih hr, List.length_cons,
        Nat.add_right_comm]

/-- The payload without the white space in front of it. -/
theorem OutlinesTo.trimStart (h : OutlinesTo s content objects) :
    (outline (trimStart s)).content = StoryTemplate.trimStart content ∧
      ∀ position, (outline (StoryTemplate.trimStart s)).objects position =
        (objects.map (earlier (blanks content))).map (later position) := by
  have hblank : ∀ c ∈ s.takeWhile isBlank, isBlank c = true := fun c hc => List.mem_takeWhile_imp hc
  have hopen : ∀ c ∈ s.takeWhile isBlank, c ≠ '\x7b' :=
    fun c hc => (noBrace_of_isBlank (hblank c hc)).1
  obtain ⟨hcontent, hobjects⟩ := h.alone
  obtain ⟨hcontent', hobjects'⟩ := outlinesTo_text hopen (StoryTemplate.trimStart s)
  rw [trimStart_append_eq] at hcontent' hobjects'
  obtain ⟨htrim, hlength⟩ := trimStart_append hblank
    (outline_flush (StoryTemplate.trimStart s) (startsWith_trimStart s))
  rw [← hcontent', hcontent] at htrim hlength
  refine ⟨htrim.symm, fun position => ?_⟩
  -- What moves forward by the length of the white space has moved back by it.
  have hmoved : ((outline (StoryTemplate.trimStart s)).objects 0).map
      (later (s.takeWhile isBlank).length) = objects := by
    have hzero := (hobjects' 0).symm.trans (hobjects 0)
    rwa [List.map_nil, List.nil_append, Outline.objects_add, later_zero, List.map_id] at hzero
  have hback : objects.map (earlier (blanks content)) =
      (outline (StoryTemplate.trimStart s)).objects 0 := by
    rw [hlength, ← hmoved, List.map_map, earlier_later, List.map_id]
  rw [hback, ← Outline.objects_add, Nat.zero_add]

/-- An anchor is outlined as an anchor. -/
theorem outlinesTo_anchor (params : Params) (hbalanced : Balanced s)
    (hfilled : isBlankText content = false) (h : OutlinesTo s content objects) :
    OutlinesTo (group (Anchor.writtenBody params s)) (trimStart content)
      (⟨trimStart content, 0, params.toDict⟩ :: objects.map (earlier (blanks content))) := by
  have hpayload : isBlankText s = false := by
    cases hblank : isBlankText s with
    | false => rfl
    | true =>
        have hopen : ∀ c ∈ s, c ≠ '\x7b' :=
          fun c hc => (noBrace_of_isBlank (List.all_eq_true.1 hblank c hc)).1
        rw [← h.alone.1, (outlinesTo_text hopen).alone.1, hblank] at hfilled
        exact nomatch hfilled
  obtain ⟨hcontent, hobjects⟩ := h.trimStart
  have hbody : Balanced (' ' :: (params.text ++ padded s)) :=
    (additive_balanced.writtenBody params hbalanced).of_append_right (u := ['<']) (by decide)
  intro u
  have hshape : group (Anchor.writtenBody params s) ++ u =
      [] ++ '\x7b' :: '<' :: (' ' :: (params.text ++ padded s) ++ '\x7d' :: u) := by
    rw [group, Anchor.writtenBody]
    simp
  rw [hshape, outline_group rfl hbody (Anchor.accepts_written params hpayload),
    Anchor.paramText_written, params.read_text, Anchor.payloadText_written params hpayload]
  constructor
  · rw [Outline.content, Outline.content, hcontent, List.nil_append]
  · intro position
    rw [Outline.objects, Outline.objects, hcontent, hobjects, List.map_cons]
    simp [later]

theorem Passage.balanced_print (passage : Passage) : Balanced passage.print := by
  induction passage with
  | literal content => exact balanced_of_noBrace fun c hc => (content.plain c hc).1
  | append first second ihf ihs => exact ihf.append ihs
  | anchor params payload ih => exact (additive_balanced.writtenBody params ih).group

/-- The outline of a printed passage has its text and its objects. -/
theorem Passage.outlinesTo_print (passage : Passage) (h : passage.Filled) :
    OutlinesTo passage.print passage.content passage.objects := by
  induction passage with
  | literal content => exact outlinesTo_text fun c hc => (content.plain c hc).1.1
  | append first second ihf ihs => exact (ihf h.1).append (ihs h.2)
  | anchor params payload ih =>
      exact outlinesTo_anchor params payload.balanced_print h.1 (ih h.2)

end Outlining
end StoryTemplate
