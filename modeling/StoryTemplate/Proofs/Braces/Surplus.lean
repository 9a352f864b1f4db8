import StoryTemplate.Proofs.Braces.Groups

/-! # Surplus — closed texts by counting

    A text is closed if no group stays open in it, and it may close groups of the
    text before it.  How many of those it can close is its surplus: the closing
    braces less the opening ones.  A closed text never runs into debt from its end,
    so an opening brace before it is closed in it exactly if there is a surplus.

    When a group gives way to another text, what stands before the group may count
    on the surplus behind it.  So it is not enough that closed texts stay closed;
    the surplus may not shrink either.

    Main facts: `closed_open_iff` (an opening brace before a text) and the laws of
    `AsClosed`, with `AsClosed.group` for a group that is replaced. -/

namespace StoryTemplate

/-- The closing braces of the text less its opening ones. -/
def surplus (s : Text) : Int := s.count '\x7d' - s.count '\x7b'

section Counting

variable {s t : Text}

@[simp] theorem surplus_nil : surplus [] = 0 := rfl

@[simp] theorem surplus_open (s : Text) : surplus ('\x7b' :: s) = surplus s - 1 := by
  rw [surplus, surplus, List.count_cons_self, List.count_cons_of_ne (by decide)]
  omega

@[simp] theorem surplus_close (s : Text) : surplus ('\x7d' :: s) = surplus s + 1 := by
  rw [surplus, surplus, List.count_cons_self, List.count_cons_of_ne (by decide)]
  omega

theorem surplus_cons {c : Char} (h : NoBrace c) (s : Text) : surplus (c :: s) = surplus s := by
  rw [surplus, surplus, List.count_cons_of_ne h.1, List.count_cons_of_ne h.2]

@[simp] theorem surplus_append (s t : Text) : surplus (s ++ t) = surplus s + surplus t := by
  rw [surplus, surplus, surplus, List.count_append, List.count_append]
  omega

/-- Counting the open groups is counting braces, as long as there are groups to
    close. -/
theorem levelAfter_surplus {depth after : Nat} (h : levelAfter depth s = some after) :
    (depth : Int) = after + surplus s := by
  induction s generalizing depth with
  | nil =>
      rw [levelAfter_nil, Option.some.injEq] at h
      rw [h, surplus_nil, Int.add_zero]
  | cons c r ih =>
      rcases brace_cases c with rfl | rfl | hc
      · rw [levelAfter_open] at h
        have := ih h
        rw [surplus_open]
        omega
      · cases depth with
        | zero => exact nomatch (levelAfter_close_zero r).symm.trans h
        | succ d =>
            rw [levelAfter_close_succ] at h
            have := ih h
            rw [surplus_close]
            omega
      · rw [levelAfter_cons hc] at h
        rw [surplus_cons hc]
        exact ih h

theorem Balanced.surplus_eq_zero (h : Balanced s) : surplus s = 0 := by
  have hlevel := levelAfter_surplus h
  omega

end Counting

/-! ## Closed texts -/

section Closing

variable {s t : Text}

/-- A character that opens no group leaves the text behind it as closed. -/
theorem closed_cons_iff {c : Char} (hc : c ≠ '\x7b') : Closed (c :: s) ↔ Closed s := by
  refine ⟨fun h => Closed.of_append (s := [c]) h, fun h => ?_⟩
  refine Closed.append (s := [c]) (fun o ho => ?_) h
  cases o with
  | zero => exact absurd (Option.some.inj ho) hc
  | succ o => exact nomatch ho

/-- An opening brace closes where the text behind it closes one too many. -/
theorem closed_open_iff_isSome :
    Closed ('\x7b' :: s) ↔ Closed s ∧ (closingOffset 0 s).isSome = true := by
  have hfirst : (BraceMap.ofText ('\x7b' :: s)).close 0 = (closingOffset 0 s).map (1 + ·) := by
    rw [BraceMap.close_ofText]
    exact if_pos rfl
  constructor
  · intro h
    obtain ⟨c, hc⟩ := h 0 rfl
    refine ⟨Closed.of_append (s := ['\x7b']) h, ?_⟩
    rw [hfirst] at hc
    rw [← Option.isSome_map, hc]
    rfl
  · rintro ⟨hs, hsome⟩ o ho
    cases o with
    | zero =>
        rw [hfirst]
        exact Option.isSome_iff_exists.1 (Option.isSome_map.trans hsome)
    | succ o =>
        obtain ⟨c, hc⟩ := hs o ho
        have hclose := BraceMap.close_append_right ['\x7b'] s o
        rw [hc] at hclose
        refine ⟨1 + c, ?_⟩
        rw [Nat.add_comm o 1]
        exact hclose

/-- A closed text is never in debt, and of the groups around it it closes as many as
    its surplus says. -/
theorem closingOffset_isSome_iff (h : Closed s) :
    0 ≤ surplus s ∧ ∀ depth : Nat, (closingOffset depth s).isSome = true ↔ depth < surplus s := by
  induction s with
  | nil =>
      refine ⟨Int.le_refl 0, fun depth => ?_⟩
      rw [closingOffset_nil, surplus_nil]
      exact ⟨(fun hnone => nomatch hnone), fun hlt => by omega⟩
  | cons c r ih =>
      rcases brace_cases c with rfl | rfl | hc
      · obtain ⟨hr, hsome⟩ := closed_open_iff_isSome.1 h
        obtain ⟨-, hiff⟩ := ih hr
        have hpos := (hiff 0).1 hsome
        rw [surplus_open]
        refine ⟨by omega, fun depth => ?_⟩
        rw [closingOffset_open, Option.isSome_map, hiff]
        omega
      · obtain ⟨hnonneg, hiff⟩ := ih ((closed_cons_iff (by decide)).1 h)
        rw [surplus_close]
        refine ⟨by omega, fun depth => ?_⟩
        cases depth with
        | zero =>
            rw [closingOffset_close_zero]
            exact ⟨fun _ => by omega, fun _ => rfl⟩
        | succ d =>
            rw [closingOffset_close_succ, Option.isSome_map, hiff]
            omega
      · obtain ⟨hnonneg, hiff⟩ := ih ((closed_cons_iff hc.1).1 h)
        rw [surplus_cons hc]
        refine ⟨hnonneg, fun depth => ?_⟩
        rw [closingOffset_cons hc, Option.isSome_map, hiff]

theorem Closed.surplus_nonneg (h : Closed s) : 0 ≤ surplus s := (closingOffset_isSome_iff h).1

/-- An opening brace is closed in the closed text behind it if there is a surplus. -/
theorem closed_open_iff : Closed ('\x7b' :: s) ↔ Closed s ∧ 0 < surplus s := by
  rw [closed_open_iff_isSome]
  exact and_congr_right fun h => (closingOffset_isSome_iff h).2 0

end Closing

/-! ## Texts that replace others -/

/-- The second text is closed if the first is, and then closes as many groups from
    outside. -/
def AsClosed (s t : Text) : Prop := Closed s → Closed t ∧ surplus s ≤ surplus t

namespace AsClosed

variable {s t u : Text}

theorem refl (s : Text) : AsClosed s s := fun h => ⟨h, Int.le_refl _⟩

theorem cons (h : AsClosed s t) (c : Char) : AsClosed (c :: s) (c :: t) := by
  intro hs
  rcases brace_cases c with rfl | rfl | hc
  · obtain ⟨hs, hpos⟩ := closed_open_iff.1 hs
    obtain ⟨ht, hle⟩ := h hs
    rw [surplus_open, surplus_open]
    exact ⟨closed_open_iff.2 ⟨ht, by omega⟩, by omega⟩
  · obtain ⟨ht, hle⟩ := h ((closed_cons_iff (by decide)).1 hs)
    rw [surplus_close, surplus_close]
    exact ⟨(closed_cons_iff (by decide)).2 ht, by omega⟩
  · obtain ⟨ht, hle⟩ := h ((closed_cons_iff hc.1).1 hs)
    rw [surplus_cons hc, surplus_cons hc]
    exact ⟨(closed_cons_iff hc.1).2 ht, hle⟩

/-- Text in front does not matter, whatever groups it leaves open. -/
theorem prepend (h : AsClosed s t) (before : Text) : AsClosed (before ++ s) (before ++ t) := by
  induction before with
  | nil => exact h
  | cons c before ih => exact ih.cons c

/-- A closed text takes the place of a group. -/
theorem group {body inner after rest : Text} (hbody : Balanced body) (hinner : Closed inner)
    (h : AsClosed after rest) :
    AsClosed ('\x7b' :: (body ++ '\x7d' :: after)) (inner ++ rest) := by
  intro hs
  obtain ⟨hrest, hle⟩ := h hs.after_group
  refine ⟨hinner.append hrest, ?_⟩
  have hnonneg := hinner.surplus_nonneg
  rw [surplus_open, surplus_append, surplus_close, surplus_append, hbody.surplus_eq_zero]
  omega

end AsClosed
end StoryTemplate
