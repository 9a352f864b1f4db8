import StoryTemplate.Proofs.Template.Printing

/-! # Choices — what is reached of a template

    A context decides every ternary and every matching of a template.  What is
    left is a passage: text, and anchors around text.  Evaluating the printed
    template gives the printed passage, whatever text follows.

    Main facts: `Template.evaluatesTo_print` and `Passage.evaluatesTo_print` (a
    second evaluation finds nothing). -/

namespace StoryTemplate

/-! ## What is reached -/

/-- What is left of a template when all choices are made. -/
inductive Passage
  | literal (content : Literal)
  | append (first second : Passage)
  | anchor (params : Params) (payload : Passage)

/-- The passage as it is written. -/
def Passage.print : Passage → Text
  | .literal content => content.text
  | .append first second => first.print ++ second.print
  | .anchor params payload => group (Anchor.writtenBody params payload.print)

/-- The first alternative with the value of the text variable, or else the
    fallback. -/
def pick {α : Type} (context : Context) (name : Text) (arms : List (Text × α)) (fallback : α) : α :=
  match context.filledText? name with
  | none => fallback
  | some stored => ((arms.find? fun arm => arm.1 = stored).map Prod.snd).getD fallback

mutual

/-- What the context leaves of the template. -/
def Template.reached (context : Context) : Template → Passage
  | .literal content => .literal content
  | .append first second => .append (first.reached context) (second.reached context)
  | .ternary flag whenTrue whenFalse =>
      if context.flags.get? flag.text = some true then whenTrue.reached context
      else whenFalse.reached context
  | .matching name value branch others fallback =>
      pick context name.text ((value.text, branch.reached context) :: others.reached context)
        (fallback.reached context)
  | .anchor params payload => .anchor params (payload.reached context)

/-- What the context leaves of each branch, with the value of its arm. -/
def Arms.reached (context : Context) : Arms → List (Text × Passage)
  | .nil => []
  | .cons value branch others => (value.text, branch.reached context) :: others.reached context

end

/-- The branches of the arms with their values. -/
def Arms.alternatives (others : Arms) : List (Text × Template) :=
  others.toList.map fun arm => (arm.1.text, arm.2)

theorem Arms.reached_eq (context : Context) (others : Arms) :
    others.reached context =
      others.alternatives.map fun arm => (arm.1, arm.2.reached context) := by
  cases others with
  | nil => rfl
  | cons value branch others => exact congrArg _ (others.reached_eq context)

/-- The text does not begin with white space. -/
def Flush (s : Text) : Prop := startsWith isBlank s = false

mutual

/-- No branch of the template is printed with white space in front. -/
def Template.Neat : Template → Prop
  | .literal _ => True
  | .append first second => first.Neat ∧ second.Neat
  | .ternary _ whenTrue whenFalse =>
      (Flush whenTrue.print ∧ whenTrue.Neat) ∧ Flush whenFalse.print ∧ whenFalse.Neat
  | .matching _ _ branch others fallback =>
      (Flush branch.print ∧ branch.Neat) ∧ others.Neat ∧ Flush fallback.print ∧ fallback.Neat
  | .anchor _ payload => payload.Neat

/-- No branch of an arm is printed with white space in front. -/
def Arms.Neat : Arms → Prop
  | .nil => True
  | .cons _ branch others => (Flush branch.print ∧ branch.Neat) ∧ others.Neat

end

theorem Arms.Neat.of_mem {others : Arms} (h : others.Neat) :
    ∀ arm ∈ others.toList, Flush arm.2.print ∧ arm.2.Neat := by
  cases others with
  | nil => exact fun arm harm => nomatch harm
  | cons value branch others => exact List.forall_mem_cons.2 ⟨h.1, Arms.Neat.of_mem h.2⟩

/-- Reading the printed arms gives their branches as they are printed. -/
theorem Arms.Neat.texts_eq {others : Arms} (h : others.Neat) :
    others.print.map (fun arm => (arm.1.text, branchText (padded arm.2))) =
      others.alternatives.map fun arm => (arm.1, arm.2.print) := by
  rw [others.print_eq, List.map_map, Arms.alternatives, List.map_map]
  refine List.map_congr_left fun arm harm => ?_
  show (arm.1.text, branchText (padded arm.2.print)) = (arm.1.text, arm.2.print)
  rw [branchText_padded (h.of_mem arm harm).1]

/-! ## Choosing one of several -/

section Picking

variable {α β : Type} {context : Context} {name : Text} {arms : List (Text × α)} {fallback : α}

/-- Choosing commutes with what is done to all alternatives. -/
theorem pick_map (f : α → β) : pick context name (arms.map fun arm => (arm.1, f arm.2)) (f fallback) =
    f (pick context name arms fallback) := by
  rw [pick, pick]
  cases context.filledText? name with
  | none => rfl
  | some stored =>
      have hfind : (arms.map fun arm => (arm.1, f arm.2)).find? (fun arm => arm.1 = stored) =
          (arms.find? fun arm => arm.1 = stored).map fun arm => (arm.1, f arm.2) := List.find?_map
      dsimp only
      rw [hfind]
      cases arms.find? fun arm => arm.1 = stored with
      | none => rfl
      | some arm => rfl

/-- One of the alternatives is chosen. -/
theorem pick_mem : pick context name arms fallback = fallback ∨
    ∃ arm ∈ arms, pick context name arms fallback = arm.2 := by
  rw [pick]
  cases context.filledText? name with
  | none => exact .inl rfl
  | some stored =>
      dsimp only
      cases hfind : arms.find? fun arm => arm.1 = stored with
      | none => exact .inl rfl
      | some arm => exact .inr ⟨arm, List.mem_of_find?_eq_some hfind, rfl⟩

end Picking

namespace Conditional

variable {context : Context} {src : Source}

/-- The text that a ternary chooses. -/
theorem choose_ternary (flag : Text) (whenTrue whenFalse : Span) :
    ((ternary flag whenTrue whenFalse).choose context .lenient).map (Span.text · src) =
      .ok (if context.flags.get? flag = some true then whenTrue.text src else whenFalse.text src) := by
  rw [choose]
  cases context.flags.get? flag with
  | none => rfl
  | some value => cases value <;> rfl

/-- The text that a matching chooses. -/
theorem choose_matching (name : Text) (arms : List (Text × Span)) (fallback : Span) :
    ((matching name arms fallback).choose context .lenient).map (Span.text · src) =
      .ok (pick context name (armTexts src arms) (fallback.text src)) := by
  rw [armTexts, pick_map (Span.text · src), choose, pick]
  cases context.filledText? name with
  | none => rfl
  | some stored => rfl

end Conditional

/-- What stands between the braces of an anchor is no conditional. -/
theorem Conditional.not_isBody_angle (body : Text) : ¬ IsBody ('<' :: body) := by
  have hword := (Span.Shows.whole ('<' :: body)).skipBlank.word
  have hempty : (trimStart ('<' :: body)).takeWhile isWord = [] := rfl
  rw [hempty] at hword
  rw [IsBody, ofBody?, content?]
  dsimp only
  rw [if_pos (by rw [hword.isEmpty_eq]; rfl)]
  decide

/-! ## Evaluation -/

/-- Evaluating the text comes to the outcome, whatever text follows. -/
def EvaluatesTo (context : Context) (s : Text) (p : Pass) : Prop :=
  ∀ u, evaluateNested context .lenient (s ++ u) = (evaluateNested context .lenient u).map p.append

section Evaluating

variable {context : Context} {s t : Text} {p q : Pass}

theorem EvaluatesTo.append (hs : EvaluatesTo context s p) (ht : EvaluatesTo context t q) :
    EvaluatesTo context (s ++ t) (p.append q) := by
  intro u
  rw [List.append_assoc, hs, ht]
  cases evaluateNested context .lenient u with
  | error fault => rfl
  | ok rest =>
      show Except.ok (p.append (q.append rest)) = .ok ((p.append q).append rest)
      simp only [Pass.append, List.append_assoc, Nat.add_assoc]

/-- By itself the text comes to the outcome. -/
theorem EvaluatesTo.alone (h : EvaluatesTo context s p) :
    evaluateNested context .lenient s = .ok p := by
  have hnil : evaluateNested context .lenient [] = .ok ⟨[], 0⟩ :=
    evaluateNested_text (List.forall_mem_nil _)
  have halone := h []
  rw [List.append_nil, hnil] at halone
  rw [halone]
  show Except.ok (Pass.mk (p.text ++ []) (p.processed + 0)) = _
  rw [List.append_nil]
  rfl

/-- Text without an opening brace stays as it is. -/
theorem evaluatesTo_text (h : ∀ c ∈ s, c ≠ '\x7b') : EvaluatesTo context s ⟨s, 0⟩ :=
  evaluateNested_text_append h

/-- An expression comes to what the chosen text comes to. -/
theorem evaluatesTo_group {body : Text} {expression : Conditional} (hbody : Balanced body)
    (hread : Conditional.ofBody? body = some expression)
    (hchoose : (expression.choose context .lenient).map (Span.text · body.toArray) = .ok t)
    (h : EvaluatesTo context t p) :
    EvaluatesTo context (group body) ⟨p.text, p.processed + 1⟩ := by
  intro u
  have hshape : group body ++ u = [] ++ '\x7b' :: (body ++ '\x7d' :: u) := by
    rw [group]
    simp
  rw [hshape, evaluateNested_group (List.forall_mem_nil _) hbody hread]
  cases hchosen : expression.choose context .lenient with
  | error fault =>
      rw [hchosen] at hchoose
      exact nomatch hchoose
  | ok branch =>
      rw [hchosen] at hchoose
      have htext : branch.text body.toArray = t := Except.ok.inj hchoose
      show (evaluateNested context .lenient (branch.text body.toArray)).bind _ = _
      rw [htext, h.alone]
      rfl

/-- Between the braces of an anchor expressions are evaluated, and the anchor stays. -/
theorem evaluatesTo_anchor (params : Params) (h : EvaluatesTo context s p) :
    EvaluatesTo context (group (Anchor.writtenBody params s))
      ⟨group (Anchor.writtenBody params p.text), p.processed⟩ := by
  have hopening : ∀ c ∈ '<' :: ' ' :: (params.text ++ [' ']), c ≠ '\x7b' := by
    intro c hc
    rcases List.mem_cons.1 hc with rfl | hc
    · decide
    · rcases List.mem_cons.1 hc with rfl | hc
      · decide
      · rcases List.mem_append.1 hc with hc | hc
        · exact (Anchor.noBrace_of_isParamChar (params.text_isParamChar c hc)).1
        · rw [List.mem_singleton.1 hc]
          decide
  have hclosing : ∀ c ∈ [' ', '\x7d'], c ≠ '\x7b' :=
    List.forall_mem_cons.2 ⟨by decide, List.forall_mem_singleton.2 (by decide)⟩
  have hinside := (evaluatesTo_text hopening).append (h.append (evaluatesTo_text hclosing))
  intro u
  have hshape : ∀ t, group (Anchor.writtenBody params t) ++ u =
      [] ++ '\x7b' :: ('<' :: ' ' :: (params.text ++ [' ']) ++ (t ++ [' ', '\x7d']) ++ u) := by
    intro t
    rw [group, Anchor.writtenBody, padded]
    simp
  rw [hshape, evaluateNested_open (List.forall_mem_nil _) fun body after heq hbody => ?_, hinside]
  · cases evaluateNested context .lenient u with
    | error fault => rfl
    | ok rest =>
        simp [Except.map, Pass.copyBefore, Pass.append, group, Anchor.writtenBody, padded]
  · cases body with
    | nil => exact absurd (List.cons.inj heq).1 (by decide)
    | cons c body =>
        obtain ⟨rfl, -⟩ := List.cons.inj heq
        exact Conditional.not_isBody_angle body

end Evaluating

variable (context : Context)

/-- A printed passage stays as it is. -/
theorem Passage.evaluatesTo_print (passage : Passage) :
    EvaluatesTo context passage.print ⟨passage.print, 0⟩ := by
  induction passage with
  | literal content => exact evaluatesTo_text fun c hc => (content.plain c hc).1.1
  | append first second ihf ihs => exact ihf.append ihs
  | anchor params payload ih => exact evaluatesTo_anchor params ih

/-- Evaluating a printed template leaves what is reached of it. -/
theorem Template.evaluatesTo_print (tree : Template) (h : tree.Neat) :
    ∃ n, EvaluatesTo context tree.print ⟨(tree.reached context).print, n⟩ := by
  induction tree using Template.induction with
  | literal content => exact ⟨0, evaluatesTo_text fun c hc => (content.plain c hc).1.1⟩
  | append first second ihf ihs =>
      obtain ⟨m, hm⟩ := ihf h.1
      obtain ⟨n, hn⟩ := ihs h.2
      exact ⟨m + n, hm.append hn⟩
  | ternary flag whenTrue whenFalse iht ihe =>
      obtain ⟨⟨hflusht, hneatt⟩, hflushe, hneate⟩ := h
      obtain ⟨t, e, hread, ht, he⟩ := Conditional.ofBody_ternary flag whenTrue.solid_print
        whenFalse.solid_print
      have hchoose := @Conditional.choose_ternary context
        (Conditional.ternaryBody flag whenTrue.print whenFalse.print).toArray flag.text t e
      have hbody := additive_balanced.ternaryBody flag whenTrue.solid_print.balanced
        whenFalse.solid_print.balanced
      rw [ht, he, branchText_padded hflusht, branchText_padded hflushe] at hchoose
      rw [Template.print, Template.reached]
      by_cases hflag : context.flags.get? flag.text = some true
      · obtain ⟨n, hn⟩ := iht hneatt
        rw [if_pos hflag] at hchoose ⊢
        exact ⟨n + 1, evaluatesTo_group hbody hread hchoose hn⟩
      · obtain ⟨n, hn⟩ := ihe hneate
        rw [if_neg hflag] at hchoose ⊢
        exact ⟨n + 1, evaluatesTo_group hbody hread hchoose hn⟩
  | matching name value branch others fallback ihb iho ihf =>
      obtain ⟨⟨hflushb, hneatb⟩, hothers, hflushf, hneatf⟩ := h
      obtain ⟨arms, last, hread, htexts, hlast⟩ := Conditional.ofBody_matching name value
        branch.solid_print others.solid_print fallback.solid_print
      have hbody := additive_balanced.matchingBody name value branch.solid_print.balanced
        (fun arm harm => (others.solid_print arm harm).balanced) fallback.solid_print.balanced
      have hchoose := @Conditional.choose_matching context
        (Conditional.matchingBody name value branch.print others.print fallback.print).toArray
        name.text arms last
      -- Both the text and what is reached are those of one and the same branch.
      have hpicked := @pick_mem _ context name.text ((value.text, branch) :: others.alternatives)
        fallback
      have hprint := @pick_map _ _ context name.text ((value.text, branch) :: others.alternatives)
        fallback Template.print
      have hreached := @pick_map _ _ context name.text ((value.text, branch) :: others.alternatives)
        fallback (Template.reached context)
      rw [htexts, hlast, branchText_padded hflushb, branchText_padded hflushf,
        hothers.texts_eq] at hchoose
      rw [List.map_cons] at hprint hreached
      rw [hprint] at hchoose
      rw [Template.print, Template.reached, others.reached_eq, hreached]
      generalize pick context name.text ((value.text, branch) :: others.alternatives) fallback =
        picked at hpicked hchoose ⊢
      have hcomes : ∃ n, EvaluatesTo context picked.print ⟨(picked.reached context).print, n⟩ := by
        rcases hpicked with rfl | ⟨arm, harm, rfl⟩
        · exact ihf hneatf
        · rcases List.mem_cons.1 harm with rfl | harm
          · exact ihb hneatb
          · obtain ⟨arm, hmem, rfl⟩ := List.mem_map.1 harm
            exact iho arm hmem (hothers.of_mem arm hmem).2
      obtain ⟨n, hn⟩ := hcomes
      exact ⟨n + 1, evaluatesTo_group hbody hread hchoose hn⟩
  | anchor params payload ih =>
      obtain ⟨n, hn⟩ := ih h
      exact ⟨n, evaluatesTo_anchor params hn⟩

end StoryTemplate
