import StoryTemplate.Text.Basic

/-! # Sources — positions and spans of a text under evaluation

    A pass over a text looks at it by position.  A `Source` is the text laid out
    for that, a `Span` names the characters from one position up to another, and
    `seek` is the one search that all scanning is made of.

    Main facts: `le_seek` (a search moves on), `holds_at_seek` (where it stops early
    the test holds) and `mul_workFrom_le` (work that moves on to later positions comes
    to an end). -/

namespace StoryTemplate

/-- A text laid out for access by position. -/
abbrev Source := Array Char

/-- The positions from `start` up to but not including `stop`. -/
structure Span where
  start : Nat
  stop : Nat
  deriving DecidableEq, Repr

/-! ## Searching -/

/-- The first of the `count` positions from `pos` on at which the test holds, or
    the position after them. -/
def seek (test : Nat → Bool) (pos : Nat) : Nat → Nat
  | 0 => pos
  | count + 1 => if test pos then pos else seek test (pos + 1) count

theorem le_seek (test : Nat → Bool) (pos count : Nat) : pos ≤ seek test pos count := by
  induction count generalizing pos with
  | zero => exact Nat.le_refl pos
  | succ count ih =>
    unfold seek
    split
    · exact Nat.le_refl pos
    · exact Nat.le_trans (Nat.le_succ pos) (ih (pos + 1))

/-- A search that stops inside its range stops where the test holds. -/
theorem holds_at_seek {test : Nat → Bool} {pos count : Nat}
    (h : seek test pos count < pos + count) : test (seek test pos count) := by
  induction count generalizing pos with
  | zero => simp [seek] at h
  | succ count ih =>
    unfold seek at h ⊢
    split
    · assumption
    · rename_i hn
      simp only [hn] at h
      exact ih (by simp at h; omega)

/-! ## Work on a source -/

/-- The work that a span from `start` on may hold in a text of `size` characters,
    if a character may send the work to fewer than `base` spans of later ones. -/
def workFrom (base size start : Nat) : Nat := Nat.pow base (size - start)

theorem workFrom_pos {base : Nat} (h : 0 < base) (size start : Nat) :
    0 < workFrom base size start :=
  Nat.pow_pos h

/-- A character outweighs `base` spans that begin after it. -/
theorem mul_workFrom_le {base size start later : Nat} (h : 0 < base) (hlater : start < later)
    (hsize : start < size) : base * workFrom base size later ≤ workFrom base size start := by
  rw [Nat.mul_comm]
  have hpow : Nat.pow base (size - later + 1) ≤ Nat.pow base (size - start) :=
    Nat.pow_le_pow_right h (by omega)
  exact hpow

/-! ## Characters of a source -/

namespace Source

/-- Whether the character at the position is `c`. -/
def isAt (src : Source) (c : Char) (pos : Nat) : Bool := src[pos]? == some c

/-- Whether the position holds a character of the class. -/
def holdsAt (src : Source) (p : Char → Bool) (pos : Nat) : Bool := src[pos]?.any p

theorem lt_size_of_isAt {src : Source} {c : Char} {pos : Nat} (h : src.isAt c pos) :
    pos < src.size := by
  simp only [isAt, beq_iff_eq] at h
  exact (Array.getElem?_eq_some_iff.mp h).1

end Source

/-! ## Spans -/

namespace Span

/-- The number of positions. -/
def length (s : Span) : Nat := s.stop - s.start

/-- Whether there is no position in the span. -/
def isEmpty (s : Span) : Bool := s.stop ≤ s.start

/-- The characters at the positions. -/
def text (s : Span) (src : Source) : Text := (src.extract s.start s.stop).toList

/-- The first position of the span at which the test holds, else its end. -/
def find (s : Span) (test : Nat → Bool) : Nat := seek test s.start s.length

/-- Whether the span begins with `c`. -/
def startsWith (s : Span) (src : Source) (c : Char) : Bool :=
  s.start < s.stop && src.isAt c s.start

/-- The span after its leading white space. -/
def skipBlank (s : Span) (src : Source) : Span :=
  { s with start := s.find fun i => !src.holdsAt isBlank i }

/-- The longest word at the beginning of the span. -/
def word (s : Span) (src : Source) : Span :=
  { s with stop := s.find fun i => !src.holdsAt isWord i }

/-- The span without the one space that may stand at its end. -/
def dropSpace (s : Span) (src : Source) : Span :=
  if s.start < s.stop && src.isAt ' ' (s.stop - 1) then { s with stop := s.stop - 1 } else s

/-- The part of the span that counts as a branch: leading white space and one
    space at the end are layout. -/
def branch (s : Span) (src : Source) : Span := (s.skipBlank src).dropSpace src

theorem start_le_find (s : Span) (test : Nat → Bool) : s.start ≤ s.find test :=
  le_seek test s.start s.length

/-- A search that stops before the end of the span stops where the test holds. -/
theorem holds_at_find {s : Span} {test : Nat → Bool} (h : s.find test < s.stop) :
    test (s.find test) := by
  have hstart := s.start_le_find test
  refine holds_at_seek ?_
  simp only [find, length] at *
  omega

@[simp] theorem dropSpace_start (s : Span) (src : Source) : (s.dropSpace src).start = s.start := by
  unfold dropSpace; split <;> rfl

theorem start_le_skipBlank (s : Span) (src : Source) : s.start ≤ (s.skipBlank src).start :=
  s.start_le_find _

theorem start_le_branch (s : Span) (src : Source) : s.start ≤ (s.branch src).start := by
  simpa [branch] using s.start_le_skipBlank src

theorem start_le_word_stop (s : Span) (src : Source) : s.start ≤ (s.word src).stop :=
  s.start_le_find _

end Span
end StoryTemplate
