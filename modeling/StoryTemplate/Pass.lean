import StoryTemplate.Fault

/-! # Passes — working until nothing is left to do

    A stage works in passes, and each pass tells how many expressions it
    processed.  The stage settles with the first pass that processes none.  A
    bound of `limit` allows that many passes to process something: the pass
    after them has to come back empty.

    The bound is a word of 64 bits, and so is the number of attempts, which is one
    more.  Sums of words wrap around here: under the largest bound no attempt is
    left, and a stage fails before its first pass.  (Where sums are checked, the
    work stops at this sum instead.)

    Main facts: `bind_eq_ok_iff` and `map_eq_ok_iff` (work that succeeds has
    succeeded in every part), `bind_eq_error_iff` (work that fails has failed in
    some part), `settleWithin_succ` (an allowed pass goes on exactly if it processed
    something), `settle_eq` (the attempts under every other bound) and
    `settle_of_largest` (what comes of the largest one). -/

namespace StoryTemplate

section Outcomes

variable {ε α β : Type} {outcome : Except ε α} {b : β} {fault : ε}

theorem bind_eq_ok_iff {f : α → Except ε β} :
    outcome.bind f = .ok b ↔ ∃ a, outcome = .ok a ∧ f a = .ok b := by
  cases outcome with
  | error fault => exact ⟨(fun h => nomatch h), fun ⟨_, h, _⟩ => nomatch h⟩
  | ok a =>
    refine ⟨fun h => ⟨a, rfl, h⟩, ?_⟩
    rintro ⟨_, ⟨⟩, h⟩
    exact h

theorem map_eq_ok_iff {f : α → β} :
    outcome.map f = .ok b ↔ ∃ a, outcome = .ok a ∧ f a = b := by
  cases outcome with
  | error fault => exact ⟨(fun h => nomatch h), fun ⟨_, h, _⟩ => nomatch h⟩
  | ok a =>
    refine ⟨fun h => ⟨a, rfl, Except.ok.inj h⟩, ?_⟩
    rintro ⟨_, ⟨⟩, rfl⟩
    rfl

/-- Work in two parts that fails has failed in the first part or, once that has
    succeeded, in the second. -/
theorem bind_eq_error_iff {f : α → Except ε β} :
    outcome.bind f = .error fault ↔
      outcome = .error fault ∨ ∃ a, outcome = .ok a ∧ f a = .error fault := by
  cases outcome with
  | error other =>
    show Except.error other = Except.error fault ↔ _
    rw [Except.error.injEq, Except.error.injEq]
    exact ⟨.inl, fun h => h.resolve_right fun ⟨_, heq, _⟩ => nomatch heq⟩
  | ok a =>
    refine ⟨fun h => .inr ⟨a, rfl, h⟩, ?_⟩
    rintro (heq | ⟨_, ⟨⟩, h⟩)
    · exact nomatch heq
    · exact h

theorem map_eq_error_iff {f : α → β} :
    outcome.map f = .error fault ↔ outcome = .error fault := by
  cases outcome with
  | error other =>
    show Except.error other = Except.error fault ↔ _
    rw [Except.error.injEq, Except.error.injEq]
  | ok a => exact ⟨(fun h => nomatch h), fun h => nomatch h⟩

end Outcomes

/-- The outcome of one pass over a text. -/
structure Pass where
  text : Text
  /-- The number of expressions that were replaced. -/
  processed : Nat
  deriving DecidableEq, Repr

/-- Repeats the pass until it processes nothing, at most `attempts` times; a
    stage that has not settled by then fails for the bound `limit`. -/
def settleWithin {α : Type} (stage : Stage) (limit : UInt64) (pass : α → Except Fault (α × Nat)) :
    Nat → α → Except Fault α
  | 0, _ => .error (.passLimit stage limit)
  | attempts + 1, value =>
    match pass value with
    | .error fault => .error fault
    | .ok (next, processed) =>
      if processed = 0 then .ok next else settleWithin stage limit pass attempts next

/-- Repeats the pass until it processes nothing, where at most `limit` passes may
    process something.  One more than the largest bound is none at all. -/
def settle {α : Type} (stage : Stage) (limit : UInt64) (pass : α → Except Fault (α × Nat))
    (value : α) : Except Fault α :=
  settleWithin stage limit pass (limit + 1).toNat value

/-- A pass that succeeds ends the stage if it processed nothing, and else leaves
    the rest to the remaining attempts. -/
theorem settleWithin_succ {α : Type} {stage : Stage} {limit : UInt64} {attempts : Nat}
    {pass : α → Except Fault (α × Nat)} {value next : α} {processed : Nat}
    (h : pass value = .ok (next, processed)) :
    settleWithin stage limit pass (attempts + 1) value =
      if processed = 0 then .ok next else settleWithin stage limit pass attempts next := by
  rw [settleWithin, h]

section Attempts

variable {α : Type} {stage : Stage} {limit : UInt64} {pass : α → Except Fault (α × Nat)} {value : α}

/-- Under every bound but the largest there is one attempt more than it says. -/
theorem settle_eq (h : limit.toNat < UInt64.size - 1) :
    settle stage limit pass value = settleWithin stage limit pass (limit.toNat + 1) value := by
  have hsum : (limit + 1).toNat = limit.toNat + 1 := by
    rw [UInt64.toNat_add]
    exact Nat.mod_eq_of_lt (Nat.add_lt_of_lt_sub h)
  rw [settle, hsum]

/-- Under the largest bound a stage fails before its first pass. -/
theorem settle_of_largest (h : ¬ limit.toNat < UInt64.size - 1) :
    settle stage limit pass value = .error (.passLimit stage limit) := by
  have hlargest : limit.toNat = UInt64.size - 1 :=
    Nat.le_antisymm (Nat.le_sub_one_of_lt limit.toNat_lt_size) (Nat.le_of_not_lt h)
  have hsum : (limit + 1).toNat = 0 := by
    rw [UInt64.toNat_add, hlargest]
    rfl
  rw [settle, hsum, settleWithin]

end Attempts

end StoryTemplate
