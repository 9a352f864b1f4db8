import StoryTemplate.Injection.Expression
import StoryTemplate.Proofs.Braces.Groups
import StoryTemplate.Proofs.Source.Views

/-! # The pattern — where injection expressions stand

    An injection expression is a group without braces inside.  So two of them in
    one text are the same or stand apart, and a search from the left finds the
    first of all.

    Main facts: `injectionAt_eq_some_iff` (an expression at the beginning of a
    text), `apart` (two expressions do not overlap) and
    `findInjection_eq_none_iff` (a search that finds nothing means that there is
    nothing). -/

namespace StoryTemplate

/-- At most one white space. -/
def AtMostBlank (s : Text) : Prop := s = [] ∨ ∃ c, s = [c] ∧ isBlank c = true

/-- The text between the braces of an injection expression with the name. -/
def IsInjection (name body : Text) : Prop :=
  ∃ lead trail, body = '>' :: (lead ++ (name ++ trail)) ∧ AtMostBlank lead ∧ AtMostBlank trail ∧
    name ≠ [] ∧ ∀ c ∈ name, isWord c = true

theorem AtMostBlank.noBrace {s : Text} (h : AtMostBlank s) : ∀ c ∈ s, NoBrace c := by
  intro c hc
  rcases h with rfl | ⟨d, rfl, hd⟩
  · exact nomatch hc
  · obtain rfl := List.mem_singleton.1 hc
    exact noBrace_of_isBlank hd

/-- There are no braces inside an injection expression. -/
theorem IsInjection.noBrace {name body : Text} (h : IsInjection name body) :
    ∀ c ∈ body, NoBrace c := by
  obtain ⟨lead, trail, rfl, hlead, htrail, -, hname⟩ := h
  intro c hc
  rcases List.mem_cons.1 hc with rfl | hc
  · exact ⟨by decide, by decide⟩
  · rcases List.mem_append.1 hc with hc | hc
    · exact hlead.noBrace c hc
    · rcases List.mem_append.1 hc with hc | hc
      · exact noBrace_of_isWord (hname c hc)
      · exact htrail.noBrace c hc

/-! ## An expression at the beginning -/

theorem dropBlank_atMostBlank {lead s : Text} (h : AtMostBlank lead)
    (hs : ∀ c ∈ s.head?, isBlank c = false) : dropBlank (lead ++ s) = s := by
  rcases h with rfl | ⟨c, rfl, hc⟩
  · cases s with
    | nil => rfl
    | cons d r =>
        rw [List.nil_append, dropBlank, hs d rfl]
        rfl
  · exact if_pos hc

theorem exists_atMostBlank (s : Text) : ∃ lead, AtMostBlank lead ∧ s = lead ++ dropBlank s := by
  cases s with
  | nil => exact ⟨[], .inl rfl, rfl⟩
  | cons c r =>
      by_cases hc : isBlank c = true
      · exact ⟨[c], .inr ⟨c, rfl, hc⟩, by rw [dropBlank, if_pos hc]; rfl⟩
      · exact ⟨[], .inl rfl, by rw [dropBlank, if_neg hc]; rfl⟩

/-- The expressions that are read at the beginning of a text. -/
theorem injectionAt_eq_some_iff {s name rest : Text} : injectionAt? s = some (name, rest) ↔
    ∃ body, s = '\x7b' :: (body ++ '\x7d' :: rest) ∧ IsInjection name body := by
  constructor
  · intro h
    simp only [injectionAt?] at h
    split at h
    · rename_i inner
      split at h
      · rename_i c r rest' hname hrest
        rw [Option.some.injEq, Prod.mk.injEq] at h
        obtain ⟨rfl, rfl⟩ := h
        obtain ⟨lead, hlead, hinner⟩ := exists_atMostBlank inner
        obtain ⟨trail, htrail, hafter⟩ := exists_atMostBlank ((dropBlank inner).dropWhile isWord)
        refine ⟨'>' :: (lead ++ ((dropBlank inner).takeWhile isWord ++ trail)), ?_, lead, trail,
          rfl, hlead, htrail, ?_, fun c hc => List.mem_takeWhile_imp hc⟩
        · rw [hrest] at hafter
          rw [List.cons_append, List.append_assoc, List.append_assoc, ← hafter,
            List.takeWhile_append_dropWhile, ← hinner]
        · rw [hname]
          exact List.cons_ne_nil c r
      · exact nomatch h
    · exact nomatch h
  · rintro ⟨body, rfl, lead, trail, rfl, hlead, htrail, hne, hname⟩
    have hafter : dropBlank (trail ++ '\x7d' :: rest) = '\x7d' :: rest :=
      dropBlank_atMostBlank htrail (by simp; decide)
    have hstop : ∀ c ∈ (trail ++ '\x7d' :: rest).head?, isWord c = false := by
      rcases htrail with rfl | ⟨d, rfl, hd⟩
      · rintro c ⟨⟩
        decide
      · rintro c ⟨⟩
        cases hword : isWord d with
        | false => rfl
        | true => exact absurd hd (by rw [not_isBlank_of_isWord hword]; decide)
    obtain ⟨first, others, rfl⟩ := List.exists_cons_of_ne_nil hne
    have hinner : dropBlank (lead ++ (first :: others ++ (trail ++ '\x7d' :: rest))) =
        first :: others ++ (trail ++ '\x7d' :: rest) := by
      refine dropBlank_atMostBlank hlead ?_
      rintro c ⟨⟩
      exact not_isBlank_of_isWord (hname first (.head _))
    have hshape : '\x7b' :: ('>' :: (lead ++ (first :: others ++ trail)) ++ '\x7d' :: rest) =
        '\x7b' :: '>' :: (lead ++ (first :: others ++ (trail ++ '\x7d' :: rest))) := by simp
    rw [hshape, injectionAt?, hinner, takeWhile_append_stop hname hstop,
      dropWhile_append_stop hname hstop, hafter]
    rfl

theorem injectionAt_expression {name body : Text} (h : IsInjection name body) (rest : Text) :
    injectionAt? ('\x7b' :: (body ++ '\x7d' :: rest)) = some (name, rest) :=
  injectionAt_eq_some_iff.2 ⟨body, rfl, h⟩

/-- The name of an expression is the one that it is written with. -/
theorem IsInjection.name_unique {name name' body : Text} (h : IsInjection name body)
    (h' : IsInjection name' body) : name = name' := by
  have hread := injectionAt_expression h []
  rw [injectionAt_expression h'] at hread
  exact (Prod.mk.inj (Option.some.inj hread)).1.symm

/-! ## Expressions in a text -/

/-- The end of a group without braces comes before the next opening brace. -/
theorem exists_of_noBrace {body after w rest : Text} (hbody : ∀ c ∈ body, NoBrace c)
    (h : body ++ '\x7d' :: after = w ++ '\x7b' :: rest) :
    ∃ mid, w = body ++ '\x7d' :: mid ∧ after = mid ++ '\x7b' :: rest := by
  induction body generalizing w with
  | nil =>
      cases w with
      | nil => exact absurd (List.cons.inj h).1 (by decide)
      | cons c w =>
          obtain ⟨rfl, hrest⟩ := List.cons.inj h
          exact ⟨w, rfl, hrest⟩
  | cons c body ih =>
      cases w with
      | nil => exact absurd (List.cons.inj h).1 (hbody c (.head _)).1
      | cons d w =>
          obtain ⟨rfl, hrest⟩ := List.cons.inj h
          obtain ⟨mid, rfl, hafter⟩ := ih (fun x hx => hbody x (.tail _ hx)) hrest
          exact ⟨mid, rfl, hafter⟩

/-- A group without braces ends at the first closing brace. -/
theorem noBrace_inj {body after body' after' : Text} (hbody : ∀ c ∈ body, NoBrace c)
    (hbody' : ∀ c ∈ body', NoBrace c) (h : body ++ '\x7d' :: after = body' ++ '\x7d' :: after') :
    body = body' ∧ after = after' := by
  induction body generalizing body' with
  | nil =>
      cases body' with
      | nil => exact ⟨rfl, (List.cons.inj h).2⟩
      | cons c body' => exact absurd (List.cons.inj h).1.symm (hbody' c (.head _)).2
  | cons c body ih =>
      cases body' with
      | nil => exact absurd (List.cons.inj h).1 (hbody c (.head _)).2
      | cons d body' =>
          obtain ⟨rfl, hrest⟩ := List.cons.inj h
          obtain ⟨rfl, hafter⟩ := ih (fun x hx => hbody x (.tail _ hx))
            (fun x hx => hbody' x (.tail _ hx)) hrest
          exact ⟨rfl, hafter⟩

/-- Two groups without braces are the same, or one stands before the other. -/
theorem apart {before body after before' body' after' : Text} (hbody : ∀ c ∈ body, NoBrace c)
    (hbody' : ∀ c ∈ body', NoBrace c)
    (h : before ++ '\x7b' :: (body ++ '\x7d' :: after) =
      before' ++ '\x7b' :: (body' ++ '\x7d' :: after')) :
    (before = before' ∧ body = body' ∧ after = after') ∨
    (∃ mid, before' = before ++ '\x7b' :: (body ++ '\x7d' :: mid) ∧
      after = mid ++ '\x7b' :: (body' ++ '\x7d' :: after')) ∨
    ∃ mid, before = before' ++ '\x7b' :: (body' ++ '\x7d' :: mid) ∧
      after' = mid ++ '\x7b' :: (body ++ '\x7d' :: after) := by
  rcases List.append_eq_append_iff.1 h with ⟨w, rfl, hrest⟩ | ⟨w, rfl, hrest⟩
  · cases w with
    | nil =>
        obtain ⟨rfl, rfl⟩ := noBrace_inj hbody hbody' (List.cons.inj hrest).2
        exact .inl ⟨(List.append_nil _).symm, rfl, rfl⟩
    | cons c w =>
        obtain ⟨rfl, hinner⟩ := List.cons.inj hrest
        obtain ⟨mid, rfl, hafter⟩ := exists_of_noBrace hbody hinner
        exact .inr (.inl ⟨mid, rfl, hafter⟩)
  · cases w with
    | nil =>
        obtain ⟨rfl, rfl⟩ := noBrace_inj hbody' hbody (List.cons.inj hrest).2
        exact .inl ⟨List.append_nil _, rfl, rfl⟩
    | cons c w =>
        obtain ⟨rfl, hinner⟩ := List.cons.inj hrest
        obtain ⟨mid, rfl, hafter⟩ := exists_of_noBrace hbody' hinner
        exact .inr (.inr ⟨mid, rfl, hafter⟩)

theorem findInjection_here {c : Char} {r name after : Text}
    (h : injectionAt? (c :: r) = some (name, after)) :
    findInjection? (c :: r) = some ⟨[], name, after⟩ := by
  rw [findInjection?, h]

theorem findInjection_later {c : Char} {r : Text} (h : injectionAt? (c :: r) = none) :
    findInjection? (c :: r) =
      (findInjection? r).map fun found => { found with before := c :: found.before } := by
  rw [findInjection?, h]

/-- What a search finds. -/
theorem exists_of_findInjection {s : Text} {found : InjectionMatch}
    (h : findInjection? s = some found) :
    ∃ body, s = found.before ++ '\x7b' :: (body ++ '\x7d' :: found.after) ∧
      IsInjection found.name body := by
  induction s generalizing found with
  | nil => exact nomatch h
  | cons c r ih =>
      cases hat : injectionAt? (c :: r) with
      | some read =>
          rw [findInjection_here hat, Option.some.injEq] at h
          subst h
          exact injectionAt_eq_some_iff.1 hat
      | none =>
          rw [findInjection_later hat] at h
          obtain ⟨inner, hinner, rfl⟩ := Option.map_eq_some_iff.1 h
          obtain ⟨body, hshape, hbody⟩ := ih hinner
          exact ⟨body, congrArg (List.cons c) hshape, hbody⟩

/-- A search that finds nothing means that there is nothing. -/
theorem findInjection_eq_none_iff {s : Text} :
    findInjection? s = none ↔ Lacks (fun body => ∃ name, IsInjection name body) s := by
  constructor
  · intro h before body after heq hbody hp
    obtain ⟨name, hname⟩ := hp
    induction s generalizing before with
    | nil => exact absurd heq (by simp)
    | cons c r ih =>
        cases hat : injectionAt? (c :: r) with
        | some read =>
            rw [findInjection_here hat] at h
            exact nomatch h
        | none =>
            rw [findInjection_later hat] at h
            cases before with
            | nil =>
                rw [heq, List.nil_append, injectionAt_expression hname] at hat
                exact nomatch hat
            | cons d before =>
                exact ih (Option.map_eq_none_iff.1 h) before (List.cons.inj heq).2
  · intro h
    cases hfind : findInjection? s with
    | none => rfl
    | some found =>
        obtain ⟨body, hshape, hbody⟩ := exists_of_findInjection hfind
        exact absurd ⟨found.name, hbody⟩
          (h found.before body found.after hshape (balanced_of_noBrace hbody.noBrace))

end StoryTemplate
