import StoryTemplate.Conditional.Evaluation
import StoryTemplate.Proofs.Conditional.Branches

/-! # Conditionals by recursion — every branch as a text of its own

    A pass over the conditionals of a text works on a stack of spans of that one
    text.  This file has the plain reading: a text is what stands before its
    first expression, the chosen branch read as a text of its own, and the rest
    read as a text of its own, each with its own pairs of braces.

    Main facts: `run_cons` (a span on the stack contributes what its text comes
    to by itself, and then the work below it is done), `evaluate_eq` (so a pass is
    the recursion) and `evaluate_as_texts` (and what is not chosen leaves no
    trace). -/

namespace StoryTemplate

namespace Pass

/-- Two outcomes one after the other. -/
def append (a b : Pass) : Pass := ⟨a.text ++ b.text, a.processed + b.processed⟩

/-- Text that is copied, before an outcome. -/
def copyBefore (s : Text) (p : Pass) : Pass := ⟨s ++ p.text, p.processed⟩

end Pass

/-- How many characters stand before the first opening brace. -/
def firstOpen (s : Text) : Nat := (s.takeWhile (· != '\x7b')).length

theorem firstOpen_le (s : Text) : firstOpen s ≤ s.length :=
  (List.takeWhile_sublist _).length_le

/-- At the position of the first opening brace there is one. -/
theorem getElem?_firstOpen {s : Text} (h : firstOpen s < s.length) :
    s[firstOpen s]? = some '\x7b' := by
  induction s with
  | nil => exact absurd h (Nat.not_lt_zero _)
  | cons c r ih =>
      by_cases hc : c = '\x7b'
      · subst hc
        rfl
      · have hstep : firstOpen (c :: r) = firstOpen r + 1 := by
          rw [firstOpen, List.takeWhile_cons_of_pos (by simpa using hc)]
          rfl
        rw [hstep] at h ⊢
        rw [List.getElem?_cons_succ]
        exact ih (Nat.lt_of_succ_lt_succ h)

theorem take_firstOpen_succ {s : Text} (h : firstOpen s < s.length) :
    s.take (firstOpen s + 1) = s.take (firstOpen s) ++ ['\x7b'] := by
  rw [List.take_add_one, getElem?_firstOpen h]
  rfl

/-- A text has no opening brace, or it has a first one. -/
theorem firstOpen_cases (s : Text) : (∀ c ∈ s, c ≠ '\x7b') ∨
    ∃ before rest, s = before ++ '\x7b' :: rest ∧ ∀ c ∈ before, c ≠ '\x7b' := by
  induction s with
  | nil => exact .inl fun c hc => nomatch hc
  | cons c r ih =>
      by_cases hc : c = '\x7b'
      · exact .inr ⟨[], r, by rw [hc, List.nil_append], fun c hc => nomatch hc⟩
      · rcases ih with hnone | ⟨before, rest, rfl, hbefore⟩
        · exact .inl (List.forall_mem_cons.2 ⟨hc, hnone⟩)
        · exact .inr ⟨c :: before, rest, rfl, List.forall_mem_cons.2 ⟨hc, hbefore⟩⟩

theorem firstOpen_eq {before rest : Text} (h : ∀ c ∈ before, c ≠ '\x7b') :
    firstOpen (before ++ '\x7b' :: rest) = before.length := by
  rw [firstOpen, List.takeWhile_append_of_pos fun c hc => by simpa using h c hc]
  simp

theorem firstOpen_lt {before rest : Text} (h : ∀ c ∈ before, c ≠ '\x7b') :
    firstOpen (before ++ '\x7b' :: rest) < (before ++ '\x7b' :: rest).length := by
  rw [firstOpen_eq h, List.length_append, List.length_cons]
  omega

theorem append_text_append (xs : Array Char) (s t : Text) : xs ++ s ++ t = xs ++ (s ++ t) := by
  apply Array.ext'
  simp

/-- The conditionals of a text evaluated from left to right, each chosen branch
    and each rest as a text of its own. -/
def evaluateNested (context : Context) (policy : VariablePolicy) (s : Text) :
    Except Fault Pass :=
  if firstOpen s < s.length then
    match _h : Conditional.parse? s.toArray (.ofText s) (firstOpen s) with
    | none =>
        (evaluateNested context policy (s.drop (firstOpen s + 1))).map
          (.copyBefore (s.take (firstOpen s + 1)))
    | some (expression, close) =>
        match _hc : expression.choose context policy with
        | .error fault => .error fault
        | .ok branch =>
            match evaluateNested context policy (branch.text s.toArray) with
            | .error fault => .error fault
            | .ok inner =>
                (evaluateNested context policy (s.drop (close + 1))).map fun rest =>
                  .append (.copyBefore (s.take (firstOpen s)) ⟨inner.text, inner.processed + 1⟩) rest
  else .ok ⟨s, 0⟩
termination_by s.length
decreasing_by
  · rw [List.length_drop]
    omega
  · have hlt := Conditional.lt_of_choose _h _hc
    rw [Span.text, Array.length_toList, Array.size_extract, List.size_toArray]
    omega
  · rw [List.length_drop]
    omega

variable {context : Context} {policy : VariablePolicy} {s : Text}

theorem evaluateNested_plain (h : ¬ firstOpen s < s.length) :
    evaluateNested context policy s = .ok ⟨s, 0⟩ := by
  rw [evaluateNested, if_neg h]

theorem evaluateNested_literal (h : firstOpen s < s.length)
    (hparse : Conditional.parse? s.toArray (.ofText s) (firstOpen s) = none) :
    evaluateNested context policy s =
      (evaluateNested context policy (s.drop (firstOpen s + 1))).map
        (.copyBefore (s.take (firstOpen s + 1))) := by
  rw [evaluateNested, if_pos h]
  split
  · rfl
  · rename_i hsome
    rw [hparse] at hsome
    exact nomatch hsome

theorem evaluateNested_fault {expression : Conditional} {close : Nat} {fault : Fault}
    (h : firstOpen s < s.length)
    (hparse : Conditional.parse? s.toArray (.ofText s) (firstOpen s) = some (expression, close))
    (hchoose : expression.choose context policy = .error fault) :
    evaluateNested context policy s = .error fault := by
  rw [evaluateNested, if_pos h]
  split
  · rename_i hnone
    rw [hparse] at hnone
    exact nomatch hnone
  · rename_i hsome
    rw [hparse, Option.some.injEq, Prod.mk.injEq] at hsome
    obtain ⟨rfl, rfl⟩ := hsome
    split
    · rename_i hfault
      rw [hchoose, Except.error.injEq] at hfault
      rw [hfault]
    · rename_i hok
      rw [hchoose] at hok
      exact nomatch hok

theorem evaluateNested_branch {expression : Conditional} {close : Nat} {branch : Span}
    (h : firstOpen s < s.length)
    (hparse : Conditional.parse? s.toArray (.ofText s) (firstOpen s) = some (expression, close))
    (hchoose : expression.choose context policy = .ok branch) :
    evaluateNested context policy s =
      (evaluateNested context policy (branch.text s.toArray)).bind fun inner =>
        (evaluateNested context policy (s.drop (close + 1))).map fun rest =>
          .append (.copyBefore (s.take (firstOpen s)) ⟨inner.text, inner.processed + 1⟩) rest := by
  rw [evaluateNested, if_pos h]
  split
  · rename_i hnone
    rw [hparse] at hnone
    exact nomatch hnone
  · rename_i hsome
    rw [hparse, Option.some.injEq, Prod.mk.injEq] at hsome
    obtain ⟨rfl, rfl⟩ := hsome
    split
    · rename_i hfault
      rw [hchoose] at hfault
      exact nomatch hfault
    · rename_i hok
      rw [hchoose, Except.ok.injEq] at hok
      subst hok
      cases evaluateNested context policy (branch.text s.toArray) with
      | error fault => rfl
      | ok inner => rfl

namespace Evaluation

variable (context : Context) (policy : VariablePolicy)

theorem run_eq (src : Source) (braces : BraceMap) (context : Context) (policy : VariablePolicy)
    (state : Evaluation) :
    run src braces context policy state = match step src braces context policy state with
      | .error fault => .error fault
      | .ok none => .ok ⟨state.output.toList, state.processed⟩
      | .ok (some next) => run src braces context policy next := by
  rw [run]
  split <;> rename_i h <;> rw [h]

/-- What a step does with a span that holds an opening brace. -/
theorem step_open {src : Source} {span : Span} {t : Text} (hshow : span.Shows src t)
    (ho : firstOpen t < t.length) (others : List Span) (output : Array Char) (processed : Nat) :
    step src (.ofText src.toList) context policy ⟨span :: others, output, processed⟩ =
      match Conditional.parse? src (.ofText src.toList) (firstOpen t + span.start) with
      | some (expression, close) =>
          match expression.choose context policy with
          | .error fault => .error fault
          | .ok branch => .ok (some ⟨branch :: ⟨close + 1, span.stop⟩ :: others,
              output ++ t.take (firstOpen t), processed + 1⟩)
      | none => .ok (some ⟨⟨firstOpen t + span.start + 1, span.stop⟩ :: others,
          (output ++ t.take (firstOpen t)).push '\x7b', processed⟩) := by
  have hfind : span.find (src.isAt '\x7b') = firstOpen t + span.start := by
    rw [Nat.add_comm]
    exact hshow.find_eq (Span.Shows.isAt_eq '\x7b')
  have hcopied : Span.text ⟨span.start, firstOpen t + span.start⟩ src = t.take (firstOpen t) := by
    rw [Nat.add_comm]
    exact (hshow.take (firstOpen_le t)).text_eq
  have hstop := hshow.stop_eq
  simp only [step]
  rewrite [hfind, if_pos (by omega), hcopied]
  cases Conditional.parse? src (.ofText src.toList) (firstOpen t + span.start) with
  | none => rfl
  | some found => rfl

/-- What a step does with a span that holds no opening brace. -/
theorem step_plain {src : Source} {span : Span} {t : Text} (hshow : span.Shows src t)
    (ho : ¬ firstOpen t < t.length) (others : List Span) (output : Array Char) (processed : Nat) :
    step src (.ofText src.toList) context policy ⟨span :: others, output, processed⟩ =
      .ok (some ⟨others, output ++ t, processed⟩) := by
  have hfind : span.find (src.isAt '\x7b') = span.start + firstOpen t :=
    hshow.find_eq (Span.Shows.isAt_eq '\x7b')
  have hstop := hshow.stop_eq
  simp only [step]
  rw [hfind, if_neg (by omega), hshow.text_eq]

/-- A span on the stack contributes what its text comes to by itself; then the
    work below it is done. -/
theorem run_cons {src : Source} {span : Span} {t : Text} (hspan : span.Intact src)
    (hshow : span.Shows src t) (others : List Span) (output : Array Char) (processed : Nat) :
    run src (.ofText src.toList) context policy ⟨span :: others, output, processed⟩ =
      (evaluateNested context policy t).bind fun p =>
        run src (.ofText src.toList) context policy
          ⟨others, output ++ p.text, processed + p.processed⟩ := by
  induction hn : t.length using Nat.strongRecOn generalizing t span others output processed with
  | ind n ih =>
      subst hn
      by_cases ho : firstOpen t < t.length
      · -- What follows position `k` of the text is read as a text of its own.
        have hrest : ∀ {k : Nat}, k ≤ t.length → 0 < k → ∀ (output : Array Char) (processed : Nat),
            run src (.ofText src.toList) context policy
              ⟨⟨k + span.start, span.stop⟩ :: others, output, processed⟩ =
            (evaluateNested context policy (t.drop k)).bind fun p =>
              run src (.ofText src.toList) context policy
                ⟨others, output ++ p.text, processed + p.processed⟩ := by
          intro k hk hpos output processed
          have hdrop := hshow.drop hk
          rw [Nat.add_comm span.start k] at hdrop
          have hstart : span.start ≤ k + span.start := Nat.le_add_left _ _
          exact ih _ (by rw [List.length_drop]; omega)
            (hspan.suffix hstart hdrop.start_le) hdrop others output processed rfl
        have hstep := step_open context policy hshow ho others output
          processed
        have hread := Conditional.parse_intact hspan hshow ho
        cases hparse : Conditional.parse? t.toArray (.ofText t) (firstOpen t) with
        | none =>
            have hpush : (output ++ t.take (firstOpen t)).push '\x7b' =
                output ++ t.take (firstOpen t + 1) := by
              rw [take_firstOpen_succ ho]
              apply Array.ext'
              simp
            rw [hparse, Option.map_none] at hread
            rw [hread] at hstep
            dsimp only at hstep
            rw [run_eq, hstep, evaluateNested_literal ho hparse]
            dsimp only
            rw [hpush, Nat.add_right_comm, hrest ho (Nat.succ_pos _)]
            cases evaluateNested context policy (t.drop (firstOpen t + 1)) with
            | error fault => rfl
            | ok rest =>
                dsimp only [Except.map, Except.bind, Pass.copyBefore]
                rw [append_text_append]
        | some found =>
            obtain ⟨expression, close⟩ := found
            rw [hparse, Option.map_some] at hread
            rw [hread] at hstep
            dsimp only at hstep
            rw [Conditional.choose_shift] at hstep
            cases hchoose : expression.choose context policy with
            | error fault =>
                rw [hchoose] at hstep
                rw [run_eq, hstep, evaluateNested_fault ho hparse hchoose]
                rfl
            | ok branch =>
                -- The branch is a span of the whole source, and a text of its own.
                have hchosen : (expression.shift span.start).choose context policy =
                    .ok (branch.shift span.start) := by
                  rw [Conditional.choose_shift, hchoose]
                  rfl
                have htext := (Conditional.branch_intact hparse branch
                  (Conditional.mem_branches_of_choose hchoose)).shows_text
                have hbranch : (branch.shift span.start).Intact src :=
                  Conditional.branch_intact hread _ (Conditional.mem_branches_of_choose hchosen)
                have hlt := Conditional.lt_of_choose hparse hchoose
                have hlen := htext.stop_eq
                have hsize := htext.stop_le
                have hclose : close < t.length := Conditional.lt_length_of_parse hparse
                rw [List.size_toArray] at hsize
                rw [hchoose] at hstep
                dsimp only [Except.map] at hstep
                rw [run_eq, hstep, evaluateNested_branch ho hparse hchoose]
                dsimp only
                rw [ih _ (by omega) hbranch (hshow.window.shows_of htext) _ _ _ rfl]
                cases evaluateNested context policy (branch.text t.toArray) with
                | error fault => rfl
                | ok inner =>
                    dsimp only [Except.bind]
                    rw [Nat.add_right_comm, hrest hclose (Nat.succ_pos _)]
                    cases evaluateNested context policy (t.drop (close + 1)) with
                    | error fault => rfl
                    | ok rest =>
                        dsimp only [Except.map, Except.bind, Pass.append, Pass.copyBefore]
                        have hcount : processed + 1 + inner.processed + rest.processed =
                            processed + (inner.processed + 1 + rest.processed) := by omega
                        rw [append_text_append, append_text_append, hcount, List.append_assoc]
      · rw [run_eq, step_plain context policy hshow ho, evaluateNested_plain ho]
        rfl

end Evaluation

/-- A pass over the conditionals of a text reads every chosen branch and every
    rest as a text of its own. -/
theorem evaluate_eq (context : Context) (policy : VariablePolicy) (s : Text) :
    evaluate context policy s = evaluateNested context policy s := by
  have hrun := Evaluation.run_cons context policy (.ofText s)
    (Span.Shows.whole s) [] #[] 0
  rw [evaluate, Evaluation.start]
  refine hrun.trans ?_
  cases evaluateNested context policy s with
  | error fault => rfl
  | ok p =>
      dsimp only [Except.bind]
      rw [Evaluation.run_eq]
      simp [Evaluation.step]

/-! ## Branches that are not chosen -/

theorem firstOpen_lt_of_parse {expression : Conditional} {close : Nat}
    (h : Conditional.parse? s.toArray (.ofText s) (firstOpen s) = some (expression, close)) :
    firstOpen s < s.length :=
  Nat.lt_trans (Conditional.lt_of_parse h).1 (Conditional.lt_length_of_parse h)

/-- All that a text with an expression owes to it is the text of the chosen branch. -/
theorem evaluateNested_chosen {expression : Conditional} {close : Nat}
    (h : Conditional.parse? s.toArray (.ofText s) (firstOpen s) = some (expression, close)) :
    evaluateNested context policy s =
      ((expression.choose context policy).map fun branch => branch.text s.toArray).bind
        fun chosen => (evaluateNested context policy chosen).bind fun inner =>
          (evaluateNested context policy (s.drop (close + 1))).map fun rest =>
            .append (.copyBefore (s.take (firstOpen s)) ⟨inner.text, inner.processed + 1⟩) rest := by
  cases hchoose : expression.choose context policy with
  | error fault => exact evaluateNested_fault (firstOpen_lt_of_parse h) h hchoose
  | ok branch => exact evaluateNested_branch (firstOpen_lt_of_parse h) h hchoose

/-- A pass is the recursion over texts: text, count and fault are those of reading each
    chosen branch and each rest by itself.  So two texts come to the same if their
    first expressions stand between the same texts and choose the same text, or fail
    alike, whatever else is in the expressions. -/
theorem evaluate_as_texts (context : Context) (policy : VariablePolicy) (s : Text) :
    evaluate context policy s = evaluateNested context policy s ∧
    ∀ (t : Text) (expression expression' : Conditional) (close close' : Nat),
      Conditional.parse? s.toArray (.ofText s) (firstOpen s) = some (expression, close) →
      Conditional.parse? t.toArray (.ofText t) (firstOpen t) = some (expression', close') →
      s.take (firstOpen s) = t.take (firstOpen t) → s.drop (close + 1) = t.drop (close' + 1) →
      (expression.choose context policy).map (fun branch => branch.text s.toArray) =
        (expression'.choose context policy).map (fun branch => branch.text t.toArray) →
      evaluate context policy s = evaluate context policy t := by
  refine ⟨evaluate_eq context policy s, ?_⟩
  intro t expression expression' close close' hs ht hbefore hafter hchosen
  rw [evaluate_eq, evaluate_eq, evaluateNested_chosen hs, evaluateNested_chosen ht, hchosen,
    hbefore, hafter]

/-- The branch that is not chosen asks for a flag that is not set. -/
theorem evaluate_as_texts_unset :
    let context : Context :=
      { flags := ({} : Dict Bool).insertAll [("f".toList, true), ("g".toList, true)] }
    let s := "-\x7b f ? a\x7b g ? b | c \x7d | \x7b h ? x | y \x7d \x7d!".toList
    let t := "-\x7b f ? a\x7b g ? b | c \x7d | \x7d!".toList
    evaluate context .strict s = .ok ⟨"-ab!".toList, 2⟩ ∧
    evaluate context .strict s = evaluateNested context .strict s ∧
    evaluate context .strict s = evaluate context .strict t := by
  intro context s t
  have hs : Conditional.parse? s.toArray (.ofText s) (firstOpen s) =
      some (.ternary "f".toList ⟨7, 21⟩ ⟨24, 37⟩, 38) := by decide +kernel
  have ht : Conditional.parse? t.toArray (.ofText t) (firstOpen t) =
      some (.ternary "f".toList ⟨7, 21⟩ ⟨24, 24⟩, 24) := by decide +kernel
  have h := evaluate_as_texts context .strict s
  exact ⟨by decide +kernel, h.1, h.2 t _ _ _ _ hs ht (by decide +kernel) (by decide +kernel)
    (by decide +kernel)⟩

end StoryTemplate
