import StoryTemplate.Source

/-! # Braces — which brace closes which

    A closing brace closes the nearest opening brace that is still open; a
    closing brace with nothing to close means nothing, and an opening brace may
    stay open for ever.  One scan from left to right finds all the pairs of a
    text, with the open positions on a stack.

    A separator counts only outside the closed groups of a span, and
    `Span.parts` cuts a span at those that count.

    Main facts: `BraceMap.lt_of_close` (a group closes after it opens) and
    `Span.start_le_of_mem_parts` (no part begins before its span). -/

namespace StoryTemplate

/-! ## The pairs of a text -/

/-- For every position of a text the position of the brace that closes the one
    opened there.  Every position that opens no closed group holds `none`. -/
structure BraceMap where
  closes : Array (Option Nat)
  forward : ∀ {opened close : Nat}, closes[opened]? = some (some close) → opened < close

namespace BraceMap

/-- Extends the pairs found so far by those of the rest of the text, given the
    positions still open, innermost first. -/
def scan (closes : Array (Option Nat)) (opened : List Nat) : Text → Array (Option Nat)
  | [] => closes
  | c :: rest =>
    if c = '\x7b' then scan (closes.push none) (closes.size :: opened) rest
    else if c = '\x7d' then
      -- A brace with nothing to close is passed over.
      match opened with
      | [] => scan (closes.push none) [] rest
      | innermost :: outer =>
        scan ((closes.setIfInBounds innermost (some closes.size)).push none) outer rest
    else scan (closes.push none) opened rest

/-- If all pairs found so far close after they open, so do all that the scan
    finds. -/
theorem forward_scan (s : Text) {closes : Array (Option Nat)} {opened : List Nat}
    (hopen : ∀ o ∈ opened, o < closes.size)
    (hclose : ∀ {o c : Nat}, closes[o]? = some (some c) → o < c)
    {o c : Nat} (h : (scan closes opened s)[o]? = some (some c)) : o < c := by
  induction s generalizing closes opened with
  | nil => exact hclose h
  | cons ch rest ih =>
    have grow : ∀ {os : List Nat}, (∀ o ∈ os, o < closes.size) →
        ∀ o ∈ os, o < (closes.push none).size := fun hos o ho => by
      have := hos o ho; simp only [Array.size_push]; omega
    have keep : ∀ {o c}, (closes.push none)[o]? = some (some c) → o < c := fun hc => by
      rw [Array.getElem?_push] at hc
      split at hc
      · simp at hc
      · exact hclose hc
    unfold scan at h
    split at h
    · refine ih (fun o ho => ?_) keep h
      rcases List.mem_cons.1 ho with rfl | ho
      · simp
      · exact grow hopen o ho
    · split at h
      · split at h
        · exact ih (by simp) keep h
        · rename_i innermost outer
          have hin : innermost < closes.size := hopen _ (.head _)
          refine ih (fun o ho => ?_) (fun {o c} hc => ?_) h
          · have := hopen o (.tail _ ho)
            simp only [Array.size_push, Array.size_setIfInBounds]
            omega
          · rw [Array.getElem?_push, Array.size_setIfInBounds] at hc
            split at hc
            · simp at hc
            · rw [Array.getElem?_setIfInBounds] at hc
              split at hc
              · rename_i heq
                simp only [Option.some.injEq] at hc
                omega
              · exact hclose hc
      · exact ih (grow hopen) keep h

/-- The pairs of the text. -/
def ofText (s : Text) : BraceMap :=
  ⟨scan #[] [] s, fun h => forward_scan s (by simp) (by simp) h⟩

/-- The position of the brace that closes the one at `opened`. -/
def close (braces : BraceMap) (opened : Nat) : Option Nat := braces.closes[opened]?.join

/-- A group closes after it opens. -/
theorem lt_of_close {braces : BraceMap} {opened close : Nat}
    (h : braces.close opened = some close) : opened < close :=
  braces.forward (Option.join_eq_some_iff.1 h)

end BraceMap

/-! ## Separators outside groups -/

namespace Span

/-- The parts of the positions from `pos` to `stop`, the first of which began at
    `start`: a group that closes before `stop` is stepped over, and a separator
    outside such groups ends a part. -/
def partsFrom (src : Source) (braces : BraceMap) (sep : Char) (stop start pos : Nat) : List Span :=
  if pos < stop then
    -- A group that closes outside the span is no group of the span.
    match h : (braces.close pos).filter (· < stop) with
    | some close => partsFrom src braces sep stop start (close + 1)
    | none =>
      if src.isAt sep pos then ⟨start, pos⟩ :: partsFrom src braces sep stop (pos + 1) (pos + 1)
      else partsFrom src braces sep stop start (pos + 1)
  else [⟨start, stop⟩]
termination_by stop - pos
decreasing_by
  · have := BraceMap.lt_of_close (Option.filter_eq_some_iff.1 h).1
    omega
  · omega
  · omega

/-- The parts of the span between the separators that lie in no closed group. -/
def parts (s : Span) (src : Source) (braces : BraceMap) (sep : Char) : List Span :=
  partsFrom src braces sep s.stop s.start s.start

theorem start_le_of_mem_partsFrom {src : Source} {braces : BraceMap} {sep : Char}
    {stop start pos : Nat} (hle : start ≤ pos) {part : Span}
    (h : part ∈ partsFrom src braces sep stop start pos) : start ≤ part.start := by
  fun_induction partsFrom src braces sep stop start pos with
  | case1 start pos hlt close hc ih =>
    have := BraceMap.lt_of_close (Option.filter_eq_some_iff.1 hc).1
    exact ih (by omega) h
  | case2 start pos hlt hc hsep ih =>
    rcases List.mem_cons.1 h with rfl | h
    · exact Nat.le_refl _
    · exact Nat.le_trans (by omega) (ih (Nat.le_refl _) h)
  | case3 start pos hlt hc hsep ih => exact ih (by omega) h
  | case4 start pos hlt =>
    simp only [List.mem_singleton] at h
    exact h ▸ Nat.le_refl _

/-- No part begins before its span. -/
theorem start_le_of_mem_parts {s part : Span} {src : Source} {braces : BraceMap} {sep : Char}
    (h : part ∈ s.parts src braces sep) : s.start ≤ part.start :=
  start_le_of_mem_partsFrom (Nat.le_refl _) h

end Span
end StoryTemplate
