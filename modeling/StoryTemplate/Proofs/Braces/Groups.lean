import StoryTemplate.Proofs.Braces.Locality

/-! # Groups — texts that hold no group of a kind

    An expression is a group whose inside has a certain form.  A text lacks such
    expressions if no group in it has the form, wherever the group stands; then
    no part of the text has one either.

    Main facts: `exists_of_closed_append` (no group reaches out of a closed text),
    `Lacks.infix` (parts of a text that lacks expressions) and `Lacks.append` (two
    such texts form no new group if the first is closed). -/

namespace StoryTemplate

/-- Of two ways to divide a text the one that divides later divides the rest of the
    other. -/
theorem exists_of_append_eq {s t u v : Text} (h : s ++ t = u ++ v) (hle : s.length ≤ u.length) :
    ∃ w, u = s ++ w ∧ t = w ++ v := by
  obtain ⟨w, rfl⟩ := List.prefix_of_prefix_length_le ⟨t, h⟩ (List.prefix_append u v) hle
  rw [List.append_assoc] at h
  exact ⟨w, rfl, List.append_cancel_left h⟩

/-- What stands behind a group is a part of the text. -/
theorem infix_after_group (before body after : Text) :
    after <:+: before ++ '\x7b' :: (body ++ '\x7d' :: after) :=
  ⟨before ++ '\x7b' :: (body ++ ['\x7d']), [], by simp⟩

/-- A group that begins in a closed text ends in it. -/
theorem exists_of_closed_append {s t before body after : Text} (hs : Closed s)
    (heq : s ++ t = before ++ '\x7b' :: (body ++ '\x7d' :: after)) (hbody : Balanced body)
    (hlt : before.length < s.length) :
    ∃ mid, s = before ++ '\x7b' :: (body ++ '\x7d' :: mid) ∧ after = mid ++ t := by
  have hclose := BraceMap.close_group before hbody after
  rw [← heq] at hclose
  have hend := BraceMap.close_lt_length (BraceMap.close_closed_append hs hlt hclose)
  have hshape : before ++ '\x7b' :: (body ++ '\x7d' :: after) =
      before ++ '\x7b' :: (body ++ ['\x7d']) ++ after := by simp
  rw [hshape] at heq
  obtain ⟨mid, rfl, hafter⟩ := exists_of_append_eq heq.symm (by
    simp only [List.length_append, List.length_cons, List.length_nil]
    omega)
  exact ⟨mid, by simp, hafter⟩

/-- What may not stand between an opening brace and its closing one may not do so with
    more text behind, if the brace is closed before that text. -/
theorem not_group_append {s : Text} {p : Text → Prop} (hs : Closed ('\x7b' :: s))
    (hnone : ∀ body after, s = body ++ '\x7d' :: after → Balanced body → ¬ p body) (t : Text) :
    ∀ body after, s ++ t = body ++ '\x7d' :: after → Balanced body → ¬ p body := by
  intro body after heq hbody
  have hgroup : '\x7b' :: s ++ t = [] ++ '\x7b' :: (body ++ '\x7d' :: after) :=
    congrArg (List.cons '\x7b') heq
  obtain ⟨mid, hshape, -⟩ := exists_of_closed_append hs hgroup hbody (Nat.succ_pos _)
  exact hnone body mid (List.cons.inj hshape).2 hbody

/-- No group of the text has the property inside its braces. -/
def Lacks (p : Text → Prop) (t : Text) : Prop :=
  ∀ before body after, t = before ++ '\x7b' :: (body ++ '\x7d' :: after) → Balanced body →
    ¬ p body

variable {p q : Text → Prop} {t : Text}

theorem Lacks.mono (h : Lacks p t) (hpq : ∀ body, q body → p body) : Lacks q t :=
  fun before body after heq hbody hq => h before body after heq hbody (hpq body hq)

/-- No group has a property and has it not. -/
theorem lacks_both (p : Text → Prop) (t : Text) : Lacks (fun body => p body ∧ ¬ p body) t :=
  fun _ _ _ _ _ h => h.2 h.1

/-- Every part of a text lacks what the text lacks. -/
theorem Lacks.infix {u v : Text} (h : Lacks p (u ++ (t ++ v))) : Lacks p t := by
  rintro before body after rfl hbody hp
  exact h (u ++ before) body (after ++ v) (by simp) hbody hp

theorem Lacks.of_infix {s : Text} (h : Lacks p s) (hts : t <:+: s) : Lacks p t := by
  obtain ⟨u, v, rfl⟩ := hts
  rw [List.append_assoc] at h
  exact h.infix

/-- No group reaches from a closed text into the text after it. -/
theorem Lacks.append {s : Text} (hclosed : Closed s) (hs : Lacks p s) (ht : Lacks p t) :
    Lacks p (s ++ t) := by
  intro before body after heq hbody hp
  by_cases hlt : before.length < s.length
  · obtain ⟨mid, hshape, -⟩ := exists_of_closed_append hclosed heq hbody hlt
    exact hs before body mid hshape hbody hp
  · obtain ⟨before', rfl, hrest⟩ := exists_of_append_eq heq (Nat.le_of_not_lt hlt)
    exact ht before' body after hrest hbody hp

end StoryTemplate
