import StoryTemplate.Proofs.Injection.Agreement
import StoryTemplate.Proofs.Template.Meaning

/-! # Rendering a printed template

    A printed template has no injections, its conditionals come to the passage that
    is reached, and the outline of the printed passage is what the passage means.
    Each stage settles with its first or second pass.

    Main fact: `render_print`. -/

namespace StoryTemplate

/-! ## Printed templates have no injections -/

/-- No injection begins in the text, whatever text follows. -/
def Inert (s : Text) : Prop := ∀ u, findInjection? u = none → findInjection? (s ++ u) = none

/-- An injection begins with an opening brace and `>`. -/
theorem injectionAt_eq_none {c d : Char} {r : Text} (h : ¬ (c = '\x7b' ∧ d = '>')) :
    injectionAt? (c :: d :: r) = none := by
  cases hat : injectionAt? (c :: d :: r) with
  | none => rfl
  | some read =>
      obtain ⟨body, hshape, lead, trail, rfl, -⟩ := injectionAt_eq_some_iff.1 hat
      obtain ⟨hc, hrest⟩ := List.cons.inj hshape
      exact absurd ⟨hc, (List.cons.inj hrest).1⟩ h

theorem findInjection_cons {c : Char} {r : Text} (hc : c ≠ '\x7b') (h : findInjection? r = none) :
    findInjection? (c :: r) = none := by
  have hnone : injectionAt? (c :: r) = none := by
    cases hat : injectionAt? (c :: r) with
    | none => rfl
    | some read =>
        obtain ⟨body, hshape, -⟩ := injectionAt_eq_some_iff.1 hat
        exact absurd (List.cons.inj hshape).1 hc
  rw [findInjection_later hnone, h]
  rfl

theorem additive_inert : Additive Inert where
  text := by
    intro s hs u hu
    induction s with
    | nil => exact hu
    | cons c r ih =>
        obtain ⟨hc, hr⟩ := List.forall_mem_cons.1 hs
        exact findInjection_cons hc.1 (ih hr)
  append := by
    intro s t hs ht u hu
    rw [List.append_assoc]
    exact hs _ (ht u hu)

/-- A group that does not begin with `>` is no injection. -/
theorem inert_group {d : Char} {body : Text} (hd : d ≠ '>') (h : Inert (d :: body)) :
    Inert (group (d :: body)) := by
  intro u hu
  have hrest := h ('\x7d' :: u) (findInjection_cons (by decide) hu)
  have hnone : injectionAt? ('\x7b' :: d :: (body ++ '\x7d' :: u)) = none :=
    injectionAt_eq_none fun hboth => hd hboth.2
  have hshape : group (d :: body) ++ u = '\x7b' :: d :: (body ++ '\x7d' :: u) := by
    rw [group]
    simp
  rw [List.cons_append] at hrest
  rw [hshape, findInjection_later hnone, hrest]
  rfl

theorem Template.inert_print (tree : Template) : Inert tree.print := by
  induction tree using Template.induction with
  | literal content => exact additive_inert.text fun c hc => (content.plain c hc).1
  | append first second ihf ihs => exact additive_inert.append ihf ihs
  | ternary flag whenTrue whenFalse iht ihe =>
      exact inert_group (by decide) (additive_inert.ternaryBody flag iht ihe)
  | matching name value branch others fallback ihb iho ihf =>
      refine inert_group (by decide) (additive_inert.matchingBody name value ihb ?_ ihf)
      intro arm harm
      rw [others.print_eq] at harm
      obtain ⟨arm, hmem, rfl⟩ := List.mem_map.1 harm
      exact iho arm hmem
  | anchor params payload ih =>
      exact inert_group (by decide) (additive_inert.writtenBody params ih)

theorem Template.findInjection_print (tree : Template) : findInjection? tree.print = none := by
  have hinert := tree.inert_print [] rfl
  rwa [List.append_nil] at hinert

/-! ## The stages -/

variable {context : Context} {config : Config}

/-- The first stage leaves a printed template as it is. -/
theorem Template.injected_print (tree : Template) (metaObjects : List MetaObject)
    (hroom : config.limit.toNat < UInt64.size - 1) :
    Document.injected ⟨tree.print, [], metaObjects⟩ context config = .ok tree.print :=
  (Document.injected_iff hroom).2 ⟨0, Nat.zero_le _, 0,
    .empty tree.findInjection_print (inject_none tree.findInjection_print)⟩

/-- The second stage leaves what is reached. -/
theorem Template.evaluated_print (tree : Template) (hpolicy : config.variablePolicy = .lenient)
    (hneat : tree.Neat) (hroom : config.limit.toNat < UInt64.size - 1) :
    Document.evaluated context config tree.print = .ok (tree.reached context).print := by
  obtain ⟨n, hfirst⟩ := tree.evaluatesTo_print context hneat
  have hsecond := (tree.reached context).evaluatesTo_print context
  have hpass : ∀ {s : Text} {p : Pass}, EvaluatesTo context s p →
      (evaluate context config.variablePolicy s).map Pass.toPair = .ok (p.text, p.processed) := by
    intro s p h
    rw [hpolicy, evaluate_eq, h.alone]
    rfl
  exact settle_of_settled hroom config.one_le_limit (hpass hfirst) (hpass hsecond)

end StoryTemplate
