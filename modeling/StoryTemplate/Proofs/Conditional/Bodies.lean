import StoryTemplate.Proofs.Conditional.Grammar

/-! # Bodies — conditionals as they are written

    A ternary is written `{ f ? T | F }` and a matching `{ v:x T |:y U | F }`,
    where the branches are solid texts.  These are forms, so reading the text between
    the braces gives the expression back, and each branch of it is the text that was
    written.

    Main facts: `ofBody_ternary` and `ofBody_matching`. -/

namespace StoryTemplate

/-! ## Branches -/

/-- A text between two spaces. -/
def padded (s : Text) : Text := ' ' :: (s ++ [' '])

theorem isBlank_space : ∀ c ∈ [' '], isBlank c = true :=
  List.forall_mem_singleton.2 rfl

/-- The spaces around a branch are layout. -/
theorem branchText_padded {s : Text} (h : startsWith isBlank s = false) :
    branchText (padded s) = s := by
  have hspace : trimStart (padded s) = trimStart (s ++ [' ']) := rfl
  rw [branchText, hspace]
  cases s with
  | nil => rfl
  | cons c r =>
      have hc : isBlank c = false := h
      have htrim : trimStart (c :: r ++ [' ']) = c :: r ++ [' '] :=
        List.dropWhile_cons_of_neg (by rw [hc]; decide)
      rw [htrim, dropLastSpace_append]

theorem Solid.padded {s : Text} (h : Solid '|' s) : Solid '|' (padded s) := by
  have hspace : Solid '|' [' '] := .char (by decide) (by decide) .nil
  exact hspace.append (h.append hspace)

namespace Conditional

variable {t e : Text}

/-- A form is read from its text alone. -/
theorem ofBody_form (form : Form) :
    ofBody? form.text = some (form.expression 0) ∧
      form.Says form.text.toArray (form.expression 0) :=
  ⟨content_of_form form (Span.Shows.whole form.text),
    says_expression form (Span.Shows.whole form.text)⟩

/-! ## Ternaries -/

/-- What is written between the braces of a ternary. -/
def ternaryBody (flag : Word) (t e : Text) : Text :=
  ' ' :: (flag.text ++ ' ' :: '?' :: (padded t ++ '|' :: padded e))

/-- A ternary is read back. -/
theorem ofBody_ternary (flag : Word) (ht : Solid '|' t) (he : Solid '|' e) :
    ∃ whenTrue whenFalse, ofBody? (ternaryBody flag t e) =
        some (.ternary flag.text whenTrue whenFalse) ∧
      whenTrue.text (ternaryBody flag t e).toArray = branchText (padded t) ∧
      whenFalse.text (ternaryBody flag t e).toArray = branchText (padded e) := by
  obtain ⟨hread, -, htrue, hfalse⟩ := ofBody_form (.ternary
    { lead := [' '], flag, gap := [' '], whenTrue := padded t, whenFalse := padded e
      lead_blank := isBlank_space, gap_blank := isBlank_space
      balanced := ht.padded.balanced, solid := he.padded })
  exact ⟨_, _, hread, htrue, hfalse⟩

/-! ## Matchings -/

/-- An arm, with the bar in front of it left out. -/
def armText (value : Word) (branch : Text) : Text := ':' :: (value.text ++ padded branch)

/-- What is written between the braces of a matching. -/
def matchingBody (name value : Word) (branch : Text) (others : List (Word × Text))
    (fallback : Text) : Text :=
  ' ' :: (name.text ++ ':' :: (value.text ++ joinWith ['|']
    (padded branch :: (others.map (fun arm => armText arm.1 arm.2) ++ [padded fallback]))))

/-- An arm as it is written. -/
def writtenArm (arm : Word × Text) (h : Solid '|' arm.2) : Arm :=
  { value := arm.1, branch := padded arm.2, solid := h.padded, apart := by rfl }

/-- What begins with a space is no arm. -/
theorem not_opensArm_padded (s : Text) : ¬ OpensArm (padded s) := by
  rintro ⟨c, r, heq, -⟩
  exact absurd (List.cons.inj heq).1 (by decide)

/-- A matching as it is written. -/
def writtenMatching (name value : Word) {branch fallback : Text} {others : List (Word × Text)}
    (hbranch : Solid '|' branch) (hothers : ∀ arm ∈ others, Solid '|' arm.2)
    (hfallback : Solid '|' fallback) : Matching where
  lead := [' ']
  name := name
  value := value
  primary := padded branch
  arms := others.pmap writtenArm hothers
  fallback := padded fallback
  lead_blank := isBlank_space
  primary_solid := hbranch.padded
  primary_blank := by rfl
  fallback_solid := hfallback.padded
  not_arm := not_opensArm_padded fallback

/-- A matching is read back. -/
theorem ofBody_matching (name value : Word) {branch fallback : Text}
    {others : List (Word × Text)} (hbranch : Solid '|' branch)
    (hothers : ∀ arm ∈ others, Solid '|' arm.2) (hfallback : Solid '|' fallback) :
    ∃ arms last, ofBody? (matchingBody name value branch others fallback) =
        some (.matching name.text arms last) ∧
      armTexts (matchingBody name value branch others fallback).toArray arms =
        (value.text, branchText (padded branch)) ::
          others.map (fun arm => (arm.1.text, branchText (padded arm.2))) ∧
      last.text (matchingBody name value branch others fallback).toArray =
        branchText (padded fallback) := by
  have harms : (others.pmap writtenArm hothers).map Arm.text =
      others.map fun arm => armText arm.1 arm.2 := by
    rw [List.map_pmap]
    exact List.pmap_eq_map (f := fun arm => armText arm.1 arm.2) hothers
  have hbranches : (others.pmap writtenArm hothers).map
      (fun arm => (arm.value.text, branchText arm.branch)) =
      others.map fun arm => (arm.1.text, branchText (padded arm.2)) := by
    rw [List.map_pmap]
    exact List.pmap_eq_map (f := fun arm => (arm.1.text, branchText (padded arm.2))) hothers
  have htext : Form.text (.matching (writtenMatching name value hbranch hothers hfallback)) =
      matchingBody name value branch others fallback := by
    rw [matchingBody, ← harms]
    rfl
  have hform := ofBody_form (.matching (writtenMatching name value hbranch hothers hfallback))
  rw [htext] at hform
  obtain ⟨hread, -, htexts, hlast⟩ := hform
  exact ⟨_, _, hread, htexts.trans (congrArg _ hbranches), hlast⟩

end Conditional
end StoryTemplate
