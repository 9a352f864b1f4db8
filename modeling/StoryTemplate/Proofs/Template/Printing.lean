import StoryTemplate.Proofs.Anchor.Bodies

/-! # Templates as trees — and how they are printed

    A template is built from plain text, ternaries, matchings and anchors, which
    may be nested to any depth.  It is printed with every group in braces, so the
    bars and braces of a part stay inside its group.

    Main fact: `Template.solid_print` (a printed template is a solid text). -/

namespace StoryTemplate

/-- Text without braces and bars. -/
structure Literal where
  text : Text
  plain : ∀ c ∈ text, NoBrace c ∧ c ≠ '|'

mutual

/-- A template: text, and the expressions in it. -/
inductive Template
  | literal (content : Literal)
  | append (first second : Template)
  | ternary (flag : Word) (whenTrue whenFalse : Template)
  | matching (name value : Word) (branch : Template) (others : Arms) (fallback : Template)
  | anchor (params : Params) (payload : Template)

/-- The arms of a matching after the first one. -/
inductive Arms
  | nil
  | cons (value : Word) (branch : Template) (others : Arms)

end

/-- The arms as a list. -/
def Arms.toList : Arms → List (Word × Template)
  | .nil => []
  | .cons value branch others => (value, branch) :: others.toList

/-- Induction on a template, where a matching has the property if all its branches
    have it. -/
theorem Template.induction {motive : Template → Prop}
    (literal : ∀ content, motive (.literal content))
    (append : ∀ first second, motive first → motive second → motive (.append first second))
    (ternary : ∀ flag whenTrue whenFalse, motive whenTrue → motive whenFalse →
      motive (.ternary flag whenTrue whenFalse))
    (matching : ∀ name value branch others fallback, motive branch →
      (∀ arm ∈ others.toList, motive arm.2) → motive fallback →
      motive (.matching name value branch others fallback))
    (anchor : ∀ params payload, motive payload → motive (.anchor params payload))
    (tree : Template) : motive tree :=
  @Template.rec motive (fun others => ∀ arm ∈ others.toList, motive arm.2) literal append ternary
    matching anchor (fun _ harm => nomatch harm)
    (fun _ _ _ hbranch hothers => List.forall_mem_cons.2 ⟨hbranch, hothers⟩) tree

/-! ## Printing -/

/-- A text between braces. -/
def group (body : Text) : Text := '\x7b' :: (body ++ ['\x7d'])

mutual

/-- The template as it is written. -/
def Template.print : Template → Text
  | .literal content => content.text
  | .append first second => first.print ++ second.print
  | .ternary flag whenTrue whenFalse =>
      group (Conditional.ternaryBody flag whenTrue.print whenFalse.print)
  | .matching name value branch others fallback =>
      group (Conditional.matchingBody name value branch.print others.print fallback.print)
  | .anchor params payload => group (Anchor.writtenBody params payload.print)

/-- The values of the arms, with the branches as they are written. -/
def Arms.print : Arms → List (Word × Text)
  | .nil => []
  | .cons value branch others => (value, branch.print) :: others.print

end

theorem Arms.print_eq (others : Arms) :
    others.print = others.toList.map fun arm => (arm.1, arm.2.print) := by
  cases others with
  | nil => rfl
  | cons value branch others => exact congrArg _ others.print_eq

/-! ## What a body is put together from -/

namespace Additive

variable {p : Text → Prop} {t e : Text}

theorem padded (hp : Additive p) (h : p t) : p (padded t) := by
  have hspace : p [' '] := hp.char (by decide)
  exact hp.append hspace (hp.append h hspace)

theorem ternaryBody (hp : Additive p) (flag : Word) (ht : p t) (he : p e) :
    p (Conditional.ternaryBody flag t e) := by
  have hspace : p [' '] := hp.char (by decide)
  have hmark : p ['?'] := hp.char (by decide)
  have hbar : p ['|'] := hp.char (by decide)
  exact hp.append hspace (hp.append (hp.text flag.noBrace)
    (hp.append hspace (hp.append hmark
      (hp.append (hp.padded ht) (hp.append hbar (hp.padded he))))))

theorem matchingBody (hp : Additive p) (name value : Word) {branch fallback : Text}
    {others : List (Word × Text)} (hbranch : p branch) (hothers : ∀ arm ∈ others, p arm.2)
    (hfallback : p fallback) : p (Conditional.matchingBody name value branch others fallback) := by
  have hspace : p [' '] := hp.char (by decide)
  have hcolon : p [':'] := hp.char (by decide)
  have hparts : ∀ t ∈ StoryTemplate.padded branch ::
      (others.map (fun arm => Conditional.armText arm.1 arm.2) ++ [StoryTemplate.padded fallback]),
      p t := by
    intro t ht
    rcases List.mem_cons.1 ht with rfl | ht
    · exact hp.padded hbranch
    · rcases List.mem_append.1 ht with ht | ht
      · obtain ⟨arm, harm, rfl⟩ := List.mem_map.1 ht
        exact hp.append hcolon (hp.append (hp.text arm.1.noBrace) (hp.padded (hothers arm harm)))
      · obtain rfl := List.mem_singleton.1 ht
        exact hp.padded hfallback
  exact hp.append hspace (hp.append (hp.text name.noBrace)
    (hp.append hcolon (hp.append (hp.text value.noBrace) (hp.joinWith (by decide) hparts))))

theorem writtenBody (hp : Additive p) (params : Params) (h : p t) :
    p (Anchor.writtenBody params t) := by
  have hangle : p ['<'] := hp.char (by decide)
  have hspace : p [' '] := hp.char (by decide)
  have hparams : p params.text :=
    hp.text fun c hc => Anchor.noBrace_of_isParamChar (params.text_isParamChar c hc)
  exact hp.append hangle (hp.append hspace (hp.append hparams (hp.padded h)))

end Additive

/-! ## Printed templates are solid -/

/-- The bars and braces of a printed template are all inside of groups. -/
theorem Template.solid_print (tree : Template) : Solid '|' tree.print := by
  induction tree using Template.induction with
  | literal content => exact .of_forall content.plain
  | append first second ihf ihs => exact ihf.append ihs
  | ternary flag whenTrue whenFalse iht ihe =>
      exact .group (additive_balanced.ternaryBody flag iht.balanced ihe.balanced) .nil
  | matching name value branch others fallback ihb iho ihf =>
      refine .group (additive_balanced.matchingBody name value ihb.balanced ?_ ihf.balanced) .nil
      intro arm harm
      rw [others.print_eq] at harm
      obtain ⟨arm, hmem, rfl⟩ := List.mem_map.1 harm
      exact (iho arm hmem).balanced
  | anchor params payload ih =>
      exact .group (additive_balanced.writtenBody params ih.balanced) .nil

/-- The arms of a matching are printed as solid texts. -/
theorem Arms.solid_print (others : Arms) : ∀ arm ∈ others.print, Solid '|' arm.2 := by
  intro arm harm
  rw [others.print_eq] at harm
  obtain ⟨arm, -, rfl⟩ := List.mem_map.1 harm
  exact arm.2.solid_print

end StoryTemplate
