import StoryTemplate.Proofs.Injection.Rewriting

/-! # Plain passes — every expression by its raw value

    The plain way to put injections in is level by level: a pass replaces every
    expression of the text by its value and does not look into the values.  It
    is the complete development of the text, and so any other choice of
    expressions to replace can be caught up with by it.

    Main facts: `plainPass_steps` (a plain pass is as many steps as it replaces
    expressions), `Parallel.triangle` (replacing some expressions leads to where
    replacing all of them leads) and `plainPass_mono` (plain passes keep the
    order of rewriting). -/

namespace StoryTemplate

/-- One plain pass: every expression of the text is replaced by its value, which
    is copied as it is.  An expression without a value is a fault. -/
def plainPass (source : Dict Text) (s : Text) : Except Fault Pass :=
  match _h : findInjection? s with
  | none => .ok ⟨s, 0⟩
  | some found =>
      match injectedValue? source found.name with
      | none => .error (.nothingInjected found.name)
      | some value =>
          (plainPass source found.after).map fun rest =>
            ⟨found.before ++ (value ++ rest.text), rest.processed + 1⟩
termination_by s.length
decreasing_by exact length_lt_of_findInjection _h

variable {source : Dict Text} {s t u : Text} {p q : Pass}

theorem plainPass_none (h : findInjection? s = none) : plainPass source s = .ok ⟨s, 0⟩ := by
  rw [plainPass]
  split
  · rfl
  · rename_i hsome
    rw [h] at hsome
    exact nomatch hsome

theorem plainPass_some {found : InjectionMatch} (h : findInjection? s = some found) :
    plainPass source s = match injectedValue? source found.name with
      | none => .error (.nothingInjected found.name)
      | some value =>
          (plainPass source found.after).map fun rest =>
            ⟨found.before ++ (value ++ rest.text), rest.processed + 1⟩ := by
  rw [plainPass]
  split
  · rename_i hnone
    rw [h] at hnone
    exact nomatch hnone
  · rename_i hsome
    rw [h, Option.some.injEq] at hsome
    subst hsome
    rfl

/-- A plain pass that succeeds on a text with an expression replaces the first one
    and goes on after it. -/
theorem exists_of_plainPass {found : InjectionMatch} (h : findInjection? s = some found)
    (hp : plainPass source s = .ok p) :
    ∃ value rest, injectedValue? source found.name = some value ∧
      plainPass source found.after = .ok rest ∧
      p = ⟨found.before ++ (value ++ rest.text), rest.processed + 1⟩ := by
  rw [plainPass_some h] at hp
  cases hvalue : injectedValue? source found.name with
  | none =>
      rw [hvalue] at hp
      exact nomatch hp
  | some value =>
      rw [hvalue] at hp
      dsimp only at hp
      cases hrest : plainPass source found.after with
      | error fault =>
          rw [hrest] at hp
          exact nomatch hp
      | ok rest =>
          rw [hrest] at hp
          exact ⟨value, rest, rfl, rfl, (Except.ok.inj hp).symm⟩

/-- A plain pass makes a step for every expression that it replaces. -/
theorem plainPass_steps (h : plainPass source s = .ok p) : Steps source p.processed s p.text := by
  induction hn : s.length using Nat.strongRecOn generalizing s p with
  | ind n ih =>
      subst hn
      cases hfind : findInjection? s with
      | none =>
          rw [plainPass_none hfind, Except.ok.injEq] at h
          subst h
          exact .refl s
      | some found =>
          obtain ⟨value, rest, hvalue, hrest, rfl⟩ := exists_of_plainPass hfind h
          have hsteps := ih _ (length_lt_of_findInjection hfind) hrest rfl
          obtain ⟨body, hshape, hbody⟩ := exists_of_findInjection hfind
          refine .head ⟨_, _, body, value, _, hbody, hvalue, hshape, rfl⟩ ?_
          have hcontext := hsteps.context (found.before ++ value) []
          simpa only [List.append_nil, List.append_assoc] using hcontext

/-- A plain pass succeeds on a text in which every expression has a value. -/
theorem exists_plainPass (h : ¬ Stuck source s) : ∃ p, plainPass source s = .ok p := by
  induction hn : s.length using Nat.strongRecOn generalizing s with
  | ind n ih =>
      subst hn
      cases hfind : findInjection? s with
      | none => exact ⟨_, plainPass_none hfind⟩
      | some found =>
          obtain ⟨body, hshape, hbody⟩ := exists_of_findInjection hfind
          have hafter : ¬ Stuck source found.after := by
            rintro ⟨b, name, body', a, hbody', hnone, ha⟩
            refine h ⟨found.before ++ '\x7b' :: (body ++ '\x7d' :: b), name, body', a, hbody',
              hnone, ?_⟩
            rw [hshape, ha]
            simp
          obtain ⟨rest, hrest⟩ := ih _ (length_lt_of_findInjection hfind) hafter rfl
          cases hvalue : injectedValue? source found.name with
          | none => exact absurd ⟨_, _, body, _, hbody, hvalue, hshape⟩ h
          | some value =>
              refine ⟨⟨found.before ++ (value ++ rest.text), rest.processed + 1⟩, ?_⟩
              rw [plainPass_some hfind, hvalue]
              dsimp only
              rw [hrest]
              rfl

/-- A plain pass over a text with an expression replaces at least one. -/
theorem plainPass_pos {found : InjectionMatch} (h : findInjection? s = some found)
    (hp : plainPass source s = .ok p) : 0 < p.processed := by
  obtain ⟨value, rest, -, -, rfl⟩ := exists_of_plainPass h hp
  exact Nat.succ_pos _

/-! ## Replacing some of the expressions -/

/-- Some of the expressions of a text are replaced at once. -/
inductive Parallel (source : Dict Text) : Text → Text → Prop
  | nil : Parallel source [] []
  | keep (c : Char) {s t : Text} (rest : Parallel source s t) : Parallel source (c :: s) (c :: t)
  | replace {name body value s t : Text} (expression : IsInjection name body)
      (stored : injectedValue? source name = some value) (rest : Parallel source s t) :
      Parallel source ('\x7b' :: (body ++ '\x7d' :: s)) (value ++ t)

namespace Parallel

theorem refl (s : Text) : Parallel source s s := by
  induction s with
  | nil => exact .nil
  | cons c r ih => exact .keep c ih

theorem keepAll (before : Text) (h : Parallel source s t) :
    Parallel source (before ++ s) (before ++ t) := by
  induction before with
  | nil => exact h
  | cons c before ih => exact .keep c ih

theorem of_rewrites (h : Rewrites source s t) : Parallel source s t := by
  obtain ⟨before, name, body, value, after, hbody, hvalue, rfl, rfl⟩ := h
  exact (replace hbody hvalue (refl after)).keepAll before

/-- What is replaced at once can be replaced step by step. -/
theorem steps (h : Parallel source s t) : ∃ n, Steps source n s t := by
  induction h with
  | nil => exact ⟨0, .refl []⟩
  | keep c rest ih =>
      obtain ⟨n, hn⟩ := ih
      have hcontext := hn.context [c] []
      rw [List.append_nil, List.append_nil] at hcontext
      exact ⟨n, hcontext⟩
  | @replace name body value s t expression stored rest ih =>
      obtain ⟨n, hn⟩ := ih
      have hcontext := hn.context value []
      rw [List.append_nil, List.append_nil] at hcontext
      exact ⟨n + 1, .head ⟨[], name, body, value, s, expression, stored, rfl, rfl⟩ hcontext⟩

/-- Without an opening brace nothing is replaced. -/
theorem of_noBrace {w : Text} (hw : ∀ c ∈ w, NoBrace c) {c : Char} (hc : c ≠ '\x7b')
    (h : Parallel source (w ++ c :: s) t) :
    ∃ t', t = w ++ c :: t' ∧ Parallel source s t' := by
  induction w generalizing t with
  | nil =>
      cases h with
      | keep c rest => exact ⟨_, rfl, rest⟩
      | replace expression stored rest => exact absurd rfl hc
  | cons d w ih =>
      have hd := (hw d (.head _)).1
      generalize hs : d :: w ++ c :: s = s' at h
      cases h with
      | nil => exact nomatch hs
      | keep c' rest =>
          obtain ⟨rfl, rfl⟩ := List.cons.inj hs
          obtain ⟨t', rfl, ht'⟩ := ih (fun x hx => hw x (.tail _ hx)) rest
          exact ⟨t', rfl, ht'⟩
      | replace expression stored rest => exact absurd (List.cons.inj hs).1 hd

/-- In a text without expressions nothing is replaced. -/
theorem eq_of_none (h : Parallel source s t) (hs : findInjection? s = none) : s = t := by
  induction h with
  | nil => rfl
  | @keep c s t rest ih =>
      cases hat : injectionAt? (c :: s) with
      | some read =>
          rw [findInjection_here hat] at hs
          exact nomatch hs
      | none =>
          rw [findInjection_later hat] at hs
          rw [ih (Option.map_eq_none_iff.1 hs)]
  | replace expression stored rest ih =>
      rw [findInjection_here (injectionAt_expression expression _)] at hs
      exact nomatch hs

/-- Before the first expression nothing is replaced. -/
theorem of_found {found : InjectionMatch} (hfind : findInjection? s = some found)
    (h : Parallel source s t) :
    ∃ t' body, t = found.before ++ t' ∧ IsInjection found.name body ∧
      Parallel source ('\x7b' :: (body ++ '\x7d' :: found.after)) t' := by
  induction s generalizing t found with
  | nil => exact nomatch hfind
  | cons c r ih =>
      cases hat : injectionAt? (c :: r) with
      | some read =>
          rw [findInjection_here hat, Option.some.injEq] at hfind
          subst hfind
          obtain ⟨body, hshape, hbody⟩ := injectionAt_eq_some_iff.1 hat
          rw [hshape] at h
          exact ⟨t, body, rfl, hbody, h⟩
      | none =>
          rw [findInjection_later hat] at hfind
          obtain ⟨inner, hinner, rfl⟩ := Option.map_eq_some_iff.1 hfind
          generalize hs : c :: r = s at h
          cases h with
          | nil => exact nomatch hs
          | keep d rest =>
              obtain ⟨rfl, rfl⟩ := List.cons.inj hs
              obtain ⟨t', body, rfl, hbody, ht'⟩ := ih hinner rest
              exact ⟨t', body, rfl, hbody, ht'⟩
          | replace expression stored rest =>
              rw [hs, injectionAt_expression expression] at hat
              exact nomatch hat

/-- Replacing the expression at the beginning, or else keeping it, leads to
    replacing it. -/
theorem catch_up {name body value after p : Text} (hbody : IsInjection name body)
    (hvalue : injectedValue? source name = some value)
    (h : Parallel source ('\x7b' :: (body ++ '\x7d' :: after)) t)
    (hafter : ∀ t', Parallel source after t' → Parallel source t' p) :
    Parallel source t (value ++ p) := by
  generalize hs : '\x7b' :: (body ++ '\x7d' :: after) = s at h
  cases h with
  | nil => exact nomatch hs
  | keep c rest =>
      obtain ⟨rfl, rfl⟩ := List.cons.inj hs
      obtain ⟨t', rfl, ht'⟩ := of_noBrace hbody.noBrace (by decide) rest
      exact .replace hbody hvalue (hafter t' ht')
  | replace expression stored rest =>
      obtain ⟨rfl, rfl⟩ := noBrace_inj hbody.noBrace expression.noBrace (List.cons.inj hs).2
      rw [expression.name_unique hbody, hvalue, Option.some.injEq] at stored
      subst stored
      exact (hafter _ rest).keepAll value

/-- Wherever replacing some expressions leads, replacing the ones that are left
    leads to where a plain pass leads. -/
theorem triangle (h : Parallel source s t) (hp : plainPass source s = .ok p) :
    Parallel source t p.text := by
  induction hn : s.length using Nat.strongRecOn generalizing s t p with
  | ind n ih =>
      subst hn
      cases hfind : findInjection? s with
      | none =>
          rw [plainPass_none hfind, Except.ok.injEq] at hp
          subst hp
          rw [h.eq_of_none hfind]
          exact refl t
      | some found =>
          obtain ⟨value, rest, hvalue, hrest, rfl⟩ := exists_of_plainPass hfind hp
          obtain ⟨t', body, rfl, hbody, hpar⟩ := of_found hfind h
          refine keepAll found.before (catch_up hbody hvalue hpar fun t'' ht'' => ?_)
          exact ih _ (length_lt_of_findInjection hfind) ht'' hrest rfl

end Parallel

/-- Plain passes keep the order of rewriting, on the way to a text without
    expressions. -/
theorem plainPass_mono {k m : Nat} (hsu : Steps source k s u) (hu : findInjection? u = none)
    (h : Steps source m s t) (hs : plainPass source s = .ok p) (ht : plainPass source t = .ok q) :
    ∃ n, Steps source n p.text q.text := by
  induction h generalizing k p with
  | refl s =>
      rw [hs, Except.ok.injEq] at ht
      subst ht
      exact ⟨0, .refl _⟩
  | @head _ s r t first rest ih =>
      obtain ⟨j, rfl, hru⟩ := hsu.after_rewrite hu first
      obtain ⟨next, hnext⟩ := exists_plainPass (hru.not_stuck hu)
      have hcaught := (Parallel.of_rewrites first).triangle hs
      obtain ⟨a, ha⟩ := (hcaught.triangle hnext).steps
      obtain ⟨b, hb⟩ := ih hru hnext ht
      exact ⟨a + b, ha.trans hb⟩

end StoryTemplate
