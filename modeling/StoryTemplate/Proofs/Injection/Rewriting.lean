import StoryTemplate.Injection.Expansion
import StoryTemplate.Proofs.Injection.Pattern

/-! # Rewriting — one expression at a time

    Replacing one injection expression by its value is a step of rewriting.  Two
    expressions never overlap, so two different steps from one text can both be
    made, in either order, and lead to the same text.  All ways to a text without
    expressions are therefore equally long, and no way misses it.

    Main facts: `Rewrites.diamond`, `Steps.descent` (random descent: the steps
    that remain do not depend on the steps that were made), `Steps.not_stuck` (an
    expression without a value never goes away) and `Steps.not_endless` (a text that
    can be rewritten for ever leads to none without expressions). -/

namespace StoryTemplate

/-- One injection expression is replaced by its value. -/
def Rewrites (source : Dict Text) (s t : Text) : Prop :=
  ∃ before name body value after, IsInjection name body ∧
    injectedValue? source name = some value ∧
    s = before ++ '\x7b' :: (body ++ '\x7d' :: after) ∧ t = before ++ (value ++ after)

/-- The text is rewritten so many times. -/
inductive Steps (source : Dict Text) : Nat → Text → Text → Prop
  | refl (s : Text) : Steps source 0 s s
  | head {n : Nat} {s t u : Text} (first : Rewrites source s t) (rest : Steps source n t u) :
      Steps source (n + 1) s u

variable {source : Dict Text} {s t u v : Text} {m n : Nat}

theorem Rewrites.context (h : Rewrites source s t) (before after : Text) :
    Rewrites source (before ++ (s ++ after)) (before ++ (t ++ after)) := by
  obtain ⟨b, name, body, value, a, hbody, hvalue, rfl, rfl⟩ := h
  exact ⟨before ++ b, name, body, value, a ++ after, hbody, hvalue, by simp, by simp⟩

namespace Steps

theorem single (h : Rewrites source s t) : Steps source 1 s t := .head h (.refl t)

theorem trans (hst : Steps source m s t) (htu : Steps source n t u) : Steps source (m + n) s u := by
  induction hst with
  | refl s => rwa [Nat.zero_add]
  | head first rest ih =>
      rw [Nat.add_right_comm]
      exact .head first (ih htu)

theorem context (h : Steps source n s t) (before after : Text) :
    Steps source n (before ++ (s ++ after)) (before ++ (t ++ after)) := by
  induction h with
  | refl s => exact .refl _
  | head first rest ih => exact .head (first.context before after) ih

end Steps

/-! ## Steps do not interfere -/

/-- Two steps are the same, or each can be made after the other. -/
theorem Rewrites.diamond (ht : Rewrites source s t) (hu : Rewrites source s u) :
    t = u ∨ ∃ v, Rewrites source t v ∧ Rewrites source u v := by
  obtain ⟨before, name, body, value, after, hbody, hvalue, rfl, rfl⟩ := ht
  obtain ⟨before', name', body', value', after', hbody', hvalue', heq, rfl⟩ := hu
  rcases apart hbody.noBrace hbody'.noBrace heq with
    ⟨rfl, rfl, rfl⟩ | ⟨mid, rfl, rfl⟩ | ⟨mid, rfl, rfl⟩
  · obtain rfl := hbody.name_unique hbody'
    rw [hvalue, Option.some.injEq] at hvalue'
    exact .inl (by rw [hvalue'])
  · refine .inr ⟨before ++ (value ++ (mid ++ (value' ++ after'))), ?_, ?_⟩
    · exact ⟨before ++ (value ++ mid), name', body', value', after', hbody', hvalue',
        by simp, by simp⟩
    · exact ⟨before, name, body, value, mid ++ (value' ++ after'), hbody, hvalue,
        by simp, by simp⟩
  · refine .inr ⟨before' ++ (value' ++ (mid ++ (value ++ after))), ?_, ?_⟩
    · exact ⟨before', name', body', value', mid ++ (value ++ after), hbody', hvalue',
        by simp, by simp⟩
    · exact ⟨before' ++ (value' ++ mid), name, body, value, after, hbody, hvalue,
        by simp, by simp⟩

/-- A text without expressions cannot be rewritten. -/
theorem Rewrites.findInjection_ne_none (h : Rewrites source s t) : findInjection? s ≠ none := by
  intro hnone
  obtain ⟨before, name, body, value, after, hbody, -, rfl, -⟩ := h
  exact findInjection_eq_none_iff.1 hnone before body after rfl
    (balanced_of_noBrace hbody.noBrace) ⟨name, hbody⟩

/-- A step on the way to a text without expressions leaves one step less. -/
theorem Steps.after_rewrite (h : Steps source n s u) (hu : findInjection? u = none)
    (hst : Rewrites source s t) : ∃ m, n = m + 1 ∧ Steps source m t u := by
  induction h generalizing t with
  | refl s => exact absurd hu hst.findInjection_ne_none
  | head first rest ih =>
      rcases first.diamond hst with rfl | ⟨v, hv, htv⟩
      · exact ⟨_, rfl, rest⟩
      · obtain ⟨m, rfl, hrest⟩ := ih hu hv
        exact ⟨m + 1, rfl, .head htv hrest⟩

/-- Random descent: after any steps the way to a text without expressions is as
    much shorter. -/
theorem Steps.descent (h : Steps source n s u) (hu : findInjection? u = none)
    (hst : Steps source m s t) : ∃ k, n = m + k ∧ Steps source k t u := by
  induction hst generalizing n with
  | refl s => exact ⟨n, (Nat.zero_add n).symm, h⟩
  | head first rest ih =>
      obtain ⟨k, rfl, hrest⟩ := h.after_rewrite hu first
      obtain ⟨j, rfl, hj⟩ := ih hrest
      exact ⟨j, Nat.add_right_comm _ _ _, hj⟩

/-- A text without expressions is reached in one number of steps only. -/
theorem Steps.count_unique (h : Steps source n s u) (h' : Steps source m s u)
    (hu : findInjection? u = none) : n = m := by
  obtain ⟨k, rfl, hk⟩ := h.descent hu h'
  cases hk with
  | refl u => rfl
  | head first rest => exact absurd hu first.findInjection_ne_none

/-- Only one text without expressions is reached. -/
theorem Steps.normal_unique (h : Steps source n s u) (h' : Steps source m s v)
    (hu : findInjection? u = none) (hv : findInjection? v = none) : u = v := by
  obtain ⟨k, -, hk⟩ := h.descent hu h'
  cases hk with
  | refl u => rfl
  | head first rest => exact absurd hv first.findInjection_ne_none

/-! ## Texts that lead nowhere -/

/-- The text holds an expression that has no value. -/
def Stuck (source : Dict Text) (s : Text) : Prop :=
  ∃ before name body after, IsInjection name body ∧ injectedValue? source name = none ∧
    s = before ++ '\x7b' :: (body ++ '\x7d' :: after)

/-- An expression without a value stays where it is. -/
theorem Stuck.rewrites (h : Stuck source s) (hst : Rewrites source s t) : Stuck source t := by
  obtain ⟨before, name, body, after, hbody, hnone, rfl⟩ := h
  obtain ⟨before', name', body', value, after', hbody', hvalue, heq, rfl⟩ := hst
  rcases apart hbody.noBrace hbody'.noBrace heq with
    ⟨rfl, rfl, rfl⟩ | ⟨mid, rfl, rfl⟩ | ⟨mid, rfl, rfl⟩
  · rw [hbody.name_unique hbody', hvalue] at hnone
    exact nomatch hnone
  · exact ⟨before, name, body, mid ++ (value ++ after'), hbody, hnone, by simp⟩
  · exact ⟨before' ++ (value ++ mid), name, body, after, hbody, hnone, by simp⟩

/-- A stuck text leads to no text without expressions. -/
theorem Steps.not_stuck (h : Steps source n s u) (hu : findInjection? u = none) :
    ¬ Stuck source s := by
  induction h with
  | refl s =>
      rintro ⟨before, name, body, after, hbody, -, rfl⟩
      exact findInjection_eq_none_iff.1 hu before body after rfl
        (balanced_of_noBrace hbody.noBrace) ⟨name, hbody⟩
  | head first rest ih => exact fun hstuck => ih hu (hstuck.rewrites first)

/-- The text holds an expression with the name. -/
def Names (s name : Text) : Prop :=
  ∃ before body after, IsInjection name body ∧ s = before ++ '\x7b' :: (body ++ '\x7d' :: after)

/-- If every name of a kind has a value that names one of the kind, a text that
    names one is rewritten for ever. -/
theorem exists_steps_of_loop (kind : Text → Prop)
    (hkind : ∀ name, kind name → ∃ value next, injectedValue? source name = some value ∧
      Names value next ∧ kind next)
    (n : Nat) {s name : Text} (hs : Names s name) (hname : kind name) :
    ∃ t, Steps source n s t := by
  induction n generalizing s name with
  | zero => exact ⟨s, .refl s⟩
  | succ n ih =>
      obtain ⟨before, body, after, hbody, rfl⟩ := hs
      obtain ⟨value, next, hvalue, ⟨b, body', a, hbody', rfl⟩, hnext⟩ := hkind name hname
      obtain ⟨t, ht⟩ := ih (s := before ++ (b ++ '\x7b' :: (body' ++ '\x7d' :: a) ++ after))
        ⟨before ++ b, body', a ++ after, hbody', by simp⟩ hnext
      exact ⟨t, .head ⟨before, name, body, _, after, hbody, hvalue, rfl, rfl⟩ ht⟩

/-- A text that is rewritten for ever leads to no text without expressions. -/
theorem Steps.not_endless (h : Steps source n s u) (hu : findInjection? u = none) :
    ¬ ∀ m, ∃ t, Steps source m s t := by
  intro hendless
  obtain ⟨t, ht⟩ := hendless (n + 1)
  obtain ⟨k, hk, -⟩ := h.descent hu ht
  omega

end StoryTemplate
