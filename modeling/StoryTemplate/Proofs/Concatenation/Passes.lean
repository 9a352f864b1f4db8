import StoryTemplate.Proofs.Braces.Surplus
import StoryTemplate.Proofs.Conditional.Settled
import StoryTemplate.Proofs.Injection.Recursion

/-! # Passes over one text after another

    No expression reaches out of a closed text.  So a pass over a closed text and
    another one behind it is a pass over each, and the second text may be anything.
    For this to go on from pass to pass the closed text has to come out closed, and
    it does: an expression is a group, and what takes its place is a closed text (a
    value, or a branch of the expression with all the groups that begin in it).

    Both kinds of passes are recursions, the one from expression to expression
    (`expand`), the other from brace to brace (`evaluateNested`); each law is an
    induction along the recursion.

    Main facts: `inject_sequential` and `evaluate_sequential`. -/

namespace StoryTemplate

namespace Pass

/-- One outcome after another; a fault ends the work. -/
def andThen (first second : Except Fault Pass) : Except Fault Pass :=
  first.bind fun p => second.map p.append

theorem append_assoc (p q r : Pass) : (p.append q).append r = p.append (q.append r) := by
  simp only [append, List.append_assoc, Nat.add_assoc]

theorem andThen_assoc (first second third : Except Fault Pass) :
    andThen (andThen first second) third = andThen first (andThen second third) := by
  cases first with
  | error fault => rfl
  | ok p =>
      cases second with
      | error fault => rfl
      | ok q =>
          cases third with
          | error fault => rfl
          | ok r => exact congrArg Except.ok (append_assoc p q r)

/-- A change to the first of two outcomes leaves the second as it is. -/
theorem map_andThen {f : Pass → Pass} (hf : ∀ p q, f (p.append q) = (f p).append q)
    (first second : Except Fault Pass) :
    (andThen first second).map f = andThen (first.map f) second := by
  cases first with
  | error fault => rfl
  | ok p =>
      cases second with
      | error fault => rfl
      | ok q => exact congrArg Except.ok (hf p q)

end Pass

open Pass

/-- The pass goes over a closed text as if nothing followed, and leaves it closed. -/
structure Sequential (pass : Text → Except Fault Pass) : Prop where
  append {s : Text} (closed : Closed s) (t : Text) : pass (s ++ t) = andThen (pass s) (pass t)
  asClosed {s : Text} {p : Pass} : pass s = .ok p → AsClosed s p.text
  idle {s t : Text} : pass s = .ok ⟨t, 0⟩ → t = s

/-! ## Injections -/

section Injecting

variable {source : Dict Text} {chain : List Text} {s t : Text}

/-- What is read at the beginning of a closed text is read there whatever follows. -/
theorem injectionAt_append (hs : Closed s) (hne : s ≠ []) (t : Text) :
    injectionAt? (s ++ t) = (injectionAt? s).map fun read => (read.1, read.2 ++ t) := by
  cases hat : injectionAt? s with
  | some read =>
      obtain ⟨name, after⟩ := read
      obtain ⟨body, rfl, hbody⟩ := injectionAt_eq_some_iff.1 hat
      rw [List.cons_append, List.append_assoc, List.cons_append, injectionAt_expression hbody]
      rfl
  | none =>
      cases hat' : injectionAt? (s ++ t) with
      | none => rfl
      | some read =>
          obtain ⟨body, hshape, hbody⟩ := injectionAt_eq_some_iff.1 hat'
          obtain ⟨mid, rfl, -⟩ := exists_of_closed_append hs (hshape.trans (List.nil_append _).symm)
            (balanced_of_noBrace hbody.noBrace) (List.length_pos_iff.2 hne)
          rw [List.nil_append, injectionAt_expression hbody] at hat
          exact nomatch hat

/-- A search that finds something in a closed text finds it whatever follows. -/
theorem findInjection_append_of_some (hs : Closed s) {found : InjectionMatch}
    (h : findInjection? s = some found) (t : Text) :
    findInjection? (s ++ t) = some { found with after := found.after ++ t } := by
  induction s generalizing found with
  | nil => exact nomatch h
  | cons c r ih =>
      have hread := injectionAt_append hs (List.cons_ne_nil c r) t
      cases hat : injectionAt? (c :: r) with
      | some read =>
          rw [findInjection_here hat, Option.some.injEq] at h
          subst h
          rw [hat] at hread
          exact findInjection_here hread
      | none =>
          rw [findInjection_later hat] at h
          obtain ⟨inner, hinner, rfl⟩ := Option.map_eq_some_iff.1 h
          rw [hat, List.cons_append] at hread
          rw [List.cons_append, findInjection_later hread, ih (hs.of_append (s := [c])) hinner]
          rfl

/-- A search that finds nothing in a closed text goes on behind it. -/
theorem findInjection_append_of_none (hs : Closed s) (h : findInjection? s = none) (t : Text) :
    findInjection? (s ++ t) =
      (findInjection? t).map fun found => { found with before := s ++ found.before } := by
  induction s with
  | nil => exact Option.map_id'.symm
  | cons c r ih =>
      have hread := injectionAt_append hs (List.cons_ne_nil c r) t
      cases hat : injectionAt? (c :: r) with
      | some read =>
          rw [findInjection_here hat] at h
          exact nomatch h
      | none =>
          rw [findInjection_later hat, Option.map_eq_none_iff] at h
          rw [hat, List.cons_append] at hread
          rw [List.cons_append, findInjection_later hread, ih (hs.of_append (s := [c])) h,
            Option.map_map]
          rfl

/-- The expansion of a text is that of its first expression, and then that of the rest. -/
theorem expand_first {found : InjectionMatch} (h : findInjection? s = some found) :
    expand source chain s = andThen ((expandName source chain found.name).map fun inner =>
      ⟨found.before ++ inner.text, inner.processed + 1⟩) (expand source chain found.after) := by
  rw [expand_some h]
  cases expandName source chain found.name with
  | error fault => rfl
  | ok inner =>
      show (expand source chain found.after).map _ = (expand source chain found.after).map _
      congr 1
      funext rest
      simp only [Pass.append, List.append_assoc]

/-- The expansion of a closed text and another one behind it is that of each. -/
theorem expand_append (hs : Closed s) (t : Text) :
    expand source chain (s ++ t) = andThen (expand source chain s) (expand source chain t) := by
  -- From one expression of `s` to the next; behind the last one the search goes on in `t`.
  induction hn : s.length using Nat.strongRecOn generalizing s with
  | ind n ih =>
      subst hn
      cases hfind : findInjection? s with
      | some found =>
          have hafter : Closed found.after := by
            obtain ⟨before, rfl⟩ := suffix_of_findInjection hfind
            exact hs.of_append
          rw [expand_first (findInjection_append_of_some hs hfind t), expand_first hfind,
            ih _ (length_lt_of_findInjection hfind) hafter rfl, andThen_assoc]
      | none =>
          rw [expand_none hfind]
          have hrest := findInjection_append_of_none hs hfind t
          cases hfind' : findInjection? t with
          | none =>
              rw [hfind'] at hrest
              rw [expand_none hfind', expand_none hrest]
              rfl
          | some found =>
              rw [hfind'] at hrest
              rw [expand_first hfind', expand_first hrest, ← andThen_assoc]
              congr 1
              cases expandName source chain found.name with
              | error fault => rfl
              | ok inner => simp [Except.map, andThen, Except.bind, Pass.append]

/-- If all values are closed, a closed text is closed once its injections are put in. -/
theorem expand_asClosed
    (hvalues : ∀ name value, injectedValue? source name = some value → Closed value)
    {p : Pass} (h : expand source chain s = .ok p) : AsClosed s p.text := by
  induction chain, s using expand_induction source generalizing p with
  | plain chain s hfind =>
      rw [expand_none hfind, Except.ok.injEq] at h
      subst h
      exact .refl s
  | missing chain s found hfind hvalue =>
      rw [expand_some hfind, expandName_missing hvalue] at h
      exact nomatch h
  | cycle chain s found value hfind hvalue hcycle =>
      rw [expand_some hfind, expandName_cycle hvalue hcycle] at h
      exact nomatch h
  | enter chain s found value hfind hvalue hfresh ihv ihr =>
      rw [expand_some hfind, expandName_enter hvalue hfresh] at h
      obtain ⟨inner, hinner, h⟩ := bind_eq_ok_iff.1 h
      obtain ⟨rest, hrest, rfl⟩ := map_eq_ok_iff.1 h
      obtain ⟨body, hshape, hbody⟩ := exists_of_findInjection hfind
      have hclosed : Closed inner.text := (ihv hinner (hvalues _ _ hvalue)).1
      rw [hshape]
      exact (AsClosed.group (balanced_of_noBrace hbody.noBrace) hclosed (ihr hrest)).prepend _

theorem inject_sequential
    (hvalues : ∀ name value, injectedValue? source name = some value → Closed value) :
    Sequential (inject source) where
  append hs t := by
    rw [inject_eq, inject_eq, inject_eq]
    exact expand_append hs t
  asClosed h := by
    rw [inject_eq] at h
    exact expand_asClosed hvalues h
  idle h := (inject_idle_iff.1 h).1

end Injecting

/-! ## Conditionals -/

section Evaluating

open Conditional

variable {context : Context} {policy : VariablePolicy} {s t : Text}

/-- The evaluation of a text is that of the chosen branch of its first expression, and
    then that of the rest. -/
theorem evaluateNested_first {before body after : Text} (hbefore : ∀ c ∈ before, c ≠ '\x7b')
    (hbody : Balanced body) {expression : Conditional} (hread : ofBody? body = some expression) :
    evaluateNested context policy (before ++ '\x7b' :: (body ++ '\x7d' :: after)) =
      andThen (((expression.choose context policy).bind fun branch =>
          evaluateNested context policy (branch.text body.toArray)).map fun inner =>
            ⟨before ++ inner.text, inner.processed + 1⟩)
        (evaluateNested context policy after) := by
  rw [evaluateNested_group hbefore hbody hread]
  cases expression.choose context policy with
  | error fault => rfl
  | ok branch =>
      dsimp only [Except.bind]
      cases evaluateNested context policy (branch.text body.toArray) with
      | error fault => rfl
      | ok inner => rfl

/-- The evaluation of a closed text and another one behind it is that of each. -/
theorem evaluateNested_append (hs : Closed s) (t : Text) :
    evaluateNested context policy (s ++ t) =
      andThen (evaluateNested context policy s) (evaluateNested context policy t) := by
  induction s using brace_induction with
  | text s hnone =>
      rw [evaluateNested_text hnone]
      exact evaluateNested_text_append hnone t
  | literal before rest hbefore hnone ih =>
      have hopen : Closed ('\x7b' :: rest) := hs.of_append
      have hcopied : ∀ p q : Pass, copyBefore (before ++ ['\x7b']) (p.append q) =
          (copyBefore (before ++ ['\x7b']) p).append q := by
        intro p q
        simp only [copyBefore, Pass.append, List.append_assoc]
      rw [List.append_assoc, List.cons_append,
        evaluateNested_open hbefore (not_group_append hopen hnone t),
        evaluateNested_open hbefore hnone, ih (hopen.of_append (s := ['\x7b'])),
        map_andThen hcopied]
  | group before body after expression hbefore hbody hread ihb ihr =>
      have hafter : Closed after := (hs.of_append (s := before)).after_group
      rw [List.append_assoc, List.cons_append, List.append_assoc, List.cons_append,
        evaluateNested_first hbefore hbody hread, evaluateNested_first hbefore hbody hread,
        ihr hafter, andThen_assoc]

/-- A closed text is closed once its conditionals are evaluated. -/
theorem evaluateNested_asClosed {p : Pass} (h : evaluateNested context policy s = .ok p) :
    AsClosed s p.text := by
  induction s using brace_induction generalizing p with
  | text s hnone =>
      rw [evaluateNested_text hnone, Except.ok.injEq] at h
      subst h
      exact .refl s
  | literal before rest hbefore hnone ih =>
      rw [evaluateNested_open hbefore hnone] at h
      obtain ⟨q, hq, rfl⟩ := map_eq_ok_iff.1 h
      show AsClosed _ (before ++ ['\x7b'] ++ q.text)
      rw [List.append_assoc]
      exact ((ih hq).cons '\x7b').prepend before
  | group before body after expression hbefore hbody hread ihb ihr =>
      rw [evaluateNested_group hbefore hbody hread] at h
      obtain ⟨branch, hchoose, h⟩ := bind_eq_ok_iff.1 h
      obtain ⟨inner, hinner, h⟩ := bind_eq_ok_iff.1 h
      obtain ⟨rest, hrest, rfl⟩ := map_eq_ok_iff.1 h
      -- All groups that begin in the branch end in it, so it is closed by itself.
      have hmem := mem_branches_of_choose hchoose
      have hbranch : Closed (branch.text body.toArray) :=
        (content_intact (.ofText body) hread branch hmem).closed_text hbody.closed
      have hclosed : Closed inner.text := (ihb branch hmem hinner hbranch).1
      show AsClosed _ (before ++ inner.text ++ rest.text)
      rw [List.append_assoc]
      exact (AsClosed.group hbody hclosed (ihr hrest)).prepend before

theorem evaluate_sequential (context : Context) (policy : VariablePolicy) :
    Sequential (evaluate context policy) where
  append hs t := by
    rw [evaluate_eq, evaluate_eq, evaluate_eq]
    exact evaluateNested_append hs t
  asClosed h := by
    rw [evaluate_eq] at h
    exact evaluateNested_asClosed h
  idle h := by
    rw [evaluate_eq] at h
    exact (evaluateNested_idle_iff.1 h).1

end Evaluating
end StoryTemplate
