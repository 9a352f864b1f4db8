import Mathlib.Order.Bounds.Defs
import Mathlib.Order.WellFounded
import StoryTemplate.Proofs.Braces.Surplus

/-! # Counting — a group ends where its braces even out

    The scan for pairs keeps all open braces of a text on its stack.  The pair of one
    brace is nevertheless found by counting from that brace on: it ends at the first
    position up to which as many braces close as open.  Whatever stands before the
    brace or behind that position has no part in it.

    Main facts: `closingOffset_eq_some_iff_isLeast` (the end of an enclosing group, by
    induction on the text), `BraceMap.close_eq_some_iff_isLeast` (the pair of a brace)
    and `BraceMap.close_matches`. -/

namespace StoryTemplate

variable {s : Text} {depth n o c o' c' : Nat}

/-- The positions behind `o` such that the text from `o` up to and including the position
    closes as many groups as it opens. -/
def evenEnds (s : Text) (o : Nat) : Set Nat :=
  {c | o < c ∧ c < s.length ∧
    (s.extract o (c + 1)).count '\x7d' = (s.extract o (c + 1)).count '\x7b'}

/-- The positions such that the text up to and including the position closes all of
    `depth` groups around it and one more. -/
def outerEnds (depth : Nat) (s : Text) : Set Nat :=
  {n | n < s.length ∧ surplus (s.take (n + 1)) = depth + 1}

/-- The least of numbers that are all moved by the same distance. -/
theorem isLeast_moved_iff {S T : Set Nat} (k : Nat) (hle : ∀ m ∈ T, k ≤ m)
    (hmoved : ∀ n, n + k ∈ T ↔ n ∈ S) {m : Nat} :
    IsLeast T m ↔ ∃ n, IsLeast S n ∧ n + k = m := by
  constructor
  · rintro ⟨hm, hlower⟩
    obtain ⟨n, rfl⟩ := Nat.exists_eq_add_of_le' (hle m hm)
    refine ⟨n, ⟨(hmoved n).1 hm, ?_⟩, rfl⟩
    intro i hi
    exact Nat.le_of_add_le_add_right (hlower ((hmoved i).2 hi))
  · rintro ⟨n, ⟨hn, hlower⟩, rfl⟩
    refine ⟨(hmoved n).2 hn, ?_⟩
    intro m hm
    obtain ⟨i, rfl⟩ := Nat.exists_eq_add_of_le' (hle m hm)
    exact Nat.add_le_add_right (hlower ((hmoved i).1 hm)) k

/-! ## The end of an enclosing group -/

/-- The first character ends the group around it if it is a closing brace and no other
    group is open. -/
theorem zero_mem_outerEnds_iff {c : Char} :
    0 ∈ outerEnds depth (c :: s) ↔ c = '\x7d' ∧ depth = 0 := by
  have hmem : 0 ∈ outerEnds depth (c :: s) ↔ surplus [c] = depth + 1 := by
    simp [outerEnds]
  rw [hmem]
  rcases brace_cases c with rfl | rfl | hc
  · rw [surplus_open, surplus_nil]
    exact iff_of_false (by omega) fun h => absurd h.1 (by decide)
  · rw [surplus_close, surplus_nil]
    exact ⟨fun h => ⟨rfl, by omega⟩, fun h => by omega⟩
  · rw [surplus_cons hc, surplus_nil]
    exact iff_of_false (by omega) fun h => hc.2 h.1

/-- Any other position ends the group in the rest of the text, with another number of
    groups open there. -/
theorem succ_mem_outerEnds_iff {c : Char} {d : Nat} (hlevel : surplus [c] + d = depth) :
    n + 1 ∈ outerEnds depth (c :: s) ↔ n ∈ outerEnds d s := by
  have happend : surplus ((c :: s).take (n + 1 + 1)) = surplus [c] + surplus (s.take (n + 1)) := by
    rw [List.take_succ_cons, ← surplus_append, List.singleton_append]
  have hlen : n + 1 < (c :: s).length ↔ n < s.length := Nat.succ_lt_succ_iff
  show n + 1 < (c :: s).length ∧ _ ↔ n < s.length ∧ _
  rw [happend, hlen]
  exact and_congr_right fun _ => ⟨fun h => by omega, fun h => by omega⟩

/-- The group around a text ends at the first position that closes one group more than
    are open and opened. -/
theorem closingOffset_eq_some_iff_isLeast :
    closingOffset depth s = some n ↔ IsLeast (outerEnds depth s) n := by
  induction s generalizing depth n with
  | nil =>
      rw [closingOffset_nil]
      exact iff_of_false (fun h => nomatch h) fun h => Nat.not_lt_zero n h.1.1
  | cons c r ih =>
      -- If the first character is not the end, the end is looked for in the rest.
      have step : ∀ {d : Nat}, ¬ (c = '\x7d' ∧ depth = 0) → surplus [c] + d = depth →
          ((closingOffset d r).map (· + 1) = some n ↔ IsLeast (outerEnds depth (c :: r)) n) := by
        intro d hfirst hlevel
        have hpos : ∀ m ∈ outerEnds depth (c :: r), 1 ≤ m := by
          rintro (_ | m) hm
          · exact absurd (zero_mem_outerEnds_iff.1 hm) hfirst
          · exact Nat.le_add_left 1 m
        rw [isLeast_moved_iff 1 hpos fun m => succ_mem_outerEnds_iff hlevel,
          Option.map_eq_some_iff]
        exact exists_congr fun m => and_congr_left fun _ => ih
      rcases brace_cases c with rfl | rfl | hc
      · rw [closingOffset_open]
        refine step (fun h => absurd h.1 (by decide)) ?_
        rw [surplus_open, surplus_nil]
        omega
      · cases depth with
        | zero =>
            have hzero : 0 ∈ outerEnds 0 ('\x7d' :: r) := zero_mem_outerEnds_iff.2 ⟨rfl, rfl⟩
            rw [closingOffset_close_zero, Option.some.injEq]
            constructor
            · rintro rfl
              exact ⟨hzero, fun m _ => Nat.zero_le m⟩
            · rintro ⟨-, hlower⟩
              exact (Nat.le_zero.1 (hlower hzero)).symm
        | succ d =>
            rw [closingOffset_close_succ]
            refine step (fun h => nomatch h.2) ?_
            rw [surplus_close, surplus_nil]
            omega
      · rw [closingOffset_cons hc]
        refine step (fun h => hc.2 h.1) ?_
        rw [surplus_cons hc, surplus_nil, Int.zero_add]

/-! ## The pair of a brace -/

namespace BraceMap

/-- Behind an opening brace the braces even out where the group around the rest ends. -/
theorem mem_evenEnds_iff (ho : s[o]? = some '\x7b') :
    n + (o + 1) ∈ evenEnds s o ↔ n ∈ outerEnds 0 (s.drop (o + 1)) := by
  obtain ⟨hlt, hbrace⟩ := List.getElem?_eq_some_iff.1 ho
  have hextract : s.extract o (n + (o + 1) + 1) = '\x7b' :: (s.drop (o + 1)).take (n + 1) := by
    rw [List.extract_eq_take_drop, List.drop_eq_getElem_cons hlt, hbrace,
      show n + (o + 1) + 1 - o = n + 1 + 1 by omega, List.take_succ_cons]
  have heven : (s.extract o (n + (o + 1) + 1)).count '\x7d' =
      (s.extract o (n + (o + 1) + 1)).count '\x7b' ↔
      surplus ((s.drop (o + 1)).take (n + 1)) = ((0 : Nat) : Int) + 1 := by
    have hsurplus := surplus_open ((s.drop (o + 1)).take (n + 1))
    rw [← hextract, surplus] at hsurplus
    omega
  show _ ∧ _ ∧ _ ↔ _ ∧ _
  rw [heven, List.length_drop, ← and_assoc]
  exact and_congr_left fun _ => ⟨fun h => by omega, fun h => by omega⟩

/-- A brace is closed at the first position where the braces from it on even out. -/
theorem close_eq_some_iff_isLeast :
    (ofText s).close o = some c ↔ s[o]? = some '\x7b' ∧ IsLeast (evenEnds s o) c := by
  rw [close_ofText]
  by_cases ho : s[o]? = some '\x7b'
  · have hbehind : ∀ c ∈ evenEnds s o, o + 1 ≤ c := fun c hc => hc.1
    rw [if_pos ho, Option.map_eq_some_iff, and_iff_right ho,
      isLeast_moved_iff (o + 1) hbehind fun n => mem_evenEnds_iff ho]
    refine exists_congr fun n => ?_
    rw [closingOffset_eq_some_iff_isLeast, Nat.add_comm n]
  · rw [if_neg ho]
    exact iff_of_false (fun h => nomatch h) fun h => ho h.1

theorem close_eq_none_iff :
    (ofText s).close o = none ↔ s[o]? ≠ some '\x7b' ∨ evenEnds s o = ∅ := by
  constructor
  · intro hnone
    by_contra! h
    obtain ⟨c, hc, hleast⟩ := wellFounded_lt.has_min (evenEnds s o) h.2
    have hclose : (ofText s).close o = some c :=
      close_eq_some_iff_isLeast.2 ⟨h.1, hc, fun i hi => Nat.le_of_not_lt (hleast i hi)⟩
    rw [hnone] at hclose
    cases hclose
  · intro h
    cases hclose : (ofText s).close o with
    | none => rfl
    | some c =>
        obtain ⟨ho, hc, -⟩ := close_eq_some_iff_isLeast.1 hclose
        rcases h with h | h
        · exact absurd ho h
        · rw [h] at hc
          exact hc.elim

/-- No brace closes two groups. -/
theorem close_injective (h : (ofText s).close o = some c) (h' : (ofText s).close o' = some c) :
    o = o' := by
  -- A group that opens inside of another one closes before the other one does.
  have hlt : ∀ {i j : Nat}, (ofText s).close i = some c → (ofText s).close j = some c → ¬ i < j := by
    intro i j hi hj hij
    obtain ⟨e, he, hec⟩ := close_inside hi hij (lt_of_close hj) (getElem?_of_close hj)
    rw [hj, Option.some.injEq] at he
    omega
  exact Nat.le_antisymm (Nat.le_of_not_lt (hlt h' h)) (Nat.le_of_not_lt (hlt h h'))

/-- Of two groups the one that opens later comes after the other one or lies in it. -/
theorem close_disjoint_or_nested (h : (ofText s).close o = some c)
    (h' : (ofText s).close o' = some c') (hlt : o < o') : c < o' ∨ c' < c := by
  by_cases hin : o' < c
  · obtain ⟨e, he, hec⟩ := close_inside h hlt hin (getElem?_of_close h')
    rw [h', Option.some.injEq] at he
    exact .inr (he ▸ hec)
  · -- The brace that closes the first group opens none.
    have hne : c ≠ o' := by
      rintro rfl
      have hboth := (getElem?_close h).symm.trans (getElem?_of_close h')
      exact absurd hboth (by decide)
    exact .inl (by omega)

/-- The pair of a brace is a matter of the text from the brace on. -/
theorem close_drop (s : Text) (o : Nat) :
    (ofText s).close o = ((ofText (s.drop o)).close 0).map (o + ·) := by
  by_cases ho : o ≤ s.length
  · have hclose := close_append_right (s.take o) (s.drop o) 0
    rwa [List.take_append_drop, List.length_take, Nat.min_eq_left ho] at hclose
  · have hout : s[o]? = none := List.getElem?_eq_none (by omega)
    rw [List.drop_eq_nil_of_le (by omega), close_ofText, hout]
    rfl

/-- Whether two braces are a pair is a matter of the text from the one to the other. -/
theorem close_extract_iff (hle : o ≤ c) (hc : c < s.length) (before after : Text) :
    (ofText (before ++ (s.extract o (c + 1) ++ after))).close before.length =
      some (before.length + (c - o)) ↔ (ofText s).close o = some c := by
  have hlen : (s.extract o (c + 1)).length = c + 1 - o := by
    rw [List.extract_eq_take_drop, List.length_take, List.length_drop]
    omega
  have hsplit : s = s.take o ++ (s.extract o (c + 1) ++ s.drop (c + 1)) := by
    have hdrop : s.drop (c + 1) = (s.drop o).drop (c + 1 - o) := by
      rw [List.drop_drop, Nat.add_sub_cancel' (by omega)]
    rw [List.extract_eq_take_drop, hdrop, List.take_append_drop, List.take_append_drop]
  have hstart : (s.take o).length = o := by rw [List.length_take, Nat.min_eq_left (by omega)]
  -- Both texts hold the part as a window, and the pair lies in it.
  have hhere := close_infix before (s.extract o (c + 1)) after 0 (c - o)
  have hthere := close_infix (s.take o) (s.extract o (c + 1)) (s.drop (c + 1)) 0 (c - o)
  have hin : c - o < (s.extract o (c + 1)).length := by omega
  rw [and_iff_left hin, Nat.add_zero] at hhere
  rw [and_iff_left hin, ← hsplit, hstart, Nat.add_zero, Nat.add_sub_cancel' hle] at hthere
  exact hhere.symm.trans hthere

/-- An opening brace is closed at the first position up to which as many braces close as
    open from it on, and stays open if there is none.  So groups are apart or one in the
    other, no brace closes two of them, and a pair depends neither on the text before it
    nor on the text behind it. -/
theorem close_matches (s : Text) :
    let close := (ofText s).close
    (∀ o c, close o = some c ↔ s[o]? = some '\x7b' ∧ IsLeast (evenEnds s o) c) ∧
    (∀ o, close o = none ↔ s[o]? ≠ some '\x7b' ∨ evenEnds s o = ∅) ∧
    (∀ o c o' c', close o = some c → close o' = some c' → o < o' → c < o' ∨ c' < c) ∧
    (∀ o o' c, close o = some c → close o' = some c → o = o') ∧
    (∀ o, close o = ((ofText (s.drop o)).close 0).map (o + ·)) ∧
    ∀ o c, o ≤ c → c < s.length → ∀ before after,
      ((ofText (before ++ (s.extract o (c + 1) ++ after))).close before.length =
        some (before.length + (c - o)) ↔ close o = some c) := by
  intro close
  refine ⟨fun o c => close_eq_some_iff_isLeast, fun o => close_eq_none_iff, ?_, ?_,
    close_drop s, ?_⟩
  · intro o c o' c' h h' hlt
    exact close_disjoint_or_nested h h' hlt
  · intro o o' c h h'
    exact close_injective h h'
  · intro o c hle hc before after
    exact close_extract_iff hle hc before after

end BraceMap
end StoryTemplate
