import Mathlib.Data.String.Basic
import StoryTemplate.Proofs.Source.Views
import StoryTemplate.Text.Split

/-! # Positions that count bytes

    A text may be stored in its UTF-8 form, where positions count bytes.  A slice of it
    is in place only if it begins and ends between two characters, and not before it
    begins.  `Checked` work has no result as soon as a slice, an index or a subtraction
    of it is out of place; a loop has a result only if it also comes to an end.

    `Source.byteOffset` ties the positions that count characters to those that count
    bytes: a span of characters that shows a text is a span of bytes that is in place
    and shows the same text.

    Main facts: `Checked.loop_eq_some_iff` (what a loop comes to),
    `Bytes.slice?_eq_some_iff` (what a slice in place is), `Span.Shows.slice?_eq` and
    `Span.Shows.inBytes_stop`. -/

namespace StoryTemplate

open String (utf8Len)

/-- The outcome of work that checks every access and every subtraction; there is none if
    one of them is out of place. -/
abbrev Checked (α : Type) := Option α

/-- Checked work goes on with the result of its first part. -/
theorem Checked.bind_of_eq {α β : Type} {first : Checked α} {a : α} (h : first = some a)
    (next : α → Checked β) : (first >>= next) = next a := by
  rw [h]
  rfl

/-! ## Loops -/

namespace Checked

variable {σ β : Type} {step : σ → Checked (β ⊕ σ)} {state : σ} {result other : β}

/-- The steps from the state on come to an end with the result, and none on the way is
    out of place. -/
inductive Ends (step : σ → Checked (β ⊕ σ)) : σ → β → Prop
  | last {state : σ} {result : β} (h : step state = some (.inl result)) : Ends step state result
  | next {state next : σ} {result : β} (h : step state = some (.inr next))
      (ends : Ends step next result) : Ends step state result

theorem Ends.unique (h : Ends step state result) (h' : Ends step state other) :
    result = other := by
  induction h with
  | last h =>
      cases h' with
      | last h' => exact Sum.inl.inj (Option.some.inj (h.symm.trans h'))
      | next h' => cases h.symm.trans h'
  | next h ends ih =>
      cases h' with
      | last h' => cases h.symm.trans h'
      | next h' ends' =>
          obtain rfl := Sum.inr.inj (Option.some.inj (h.symm.trans h'))
          exact ih ends'

open Classical in
/-- The result that the steps from the state on end with; there is none if one of them is
    out of place, or if they go on for ever. -/
noncomputable def loop (step : σ → Checked (β ⊕ σ)) (state : σ) : Checked β :=
  if h : ∃ result, Ends step state result then some h.choose else none

theorem loop_eq_some_iff : loop step state = some result ↔ Ends step state result := by
  rw [loop]
  by_cases h : ∃ result, Ends step state result
  · rw [dif_pos h, Option.some.injEq]
    constructor
    · rintro rfl
      exact h.choose_spec
    · exact h.choose_spec.unique
  · rw [dif_neg h]
    exact iff_of_false (Option.some_ne_none result).symm fun hends => h ⟨result, hends⟩

end Checked

namespace Bytes

/-! ## Accesses -/

/-- The position lies between two characters of the text, or at one of its ends. -/
def IsBoundary (s : Text) (pos : Nat) : Prop :=
  ∃ before after, s = before ++ after ∧ utf8Len before = pos

/-- The texts before and after the position. -/
def cutAt? : Text → Nat → Checked (Text × Text)
  | s, 0 => some ([], s)
  | [], _ + 1 => none
  | c :: r, pos + 1 =>
      if c.utf8Size ≤ pos + 1 then
        (cutAt? r (pos + 1 - c.utf8Size)).map fun cut => (c :: cut.1, cut.2)
      else none

/-- The text between the positions of the span. -/
def slice? (s : Text) (span : Span) : Checked Text :=
  if span.start ≤ span.stop then do
    let (_, rest) ← cutAt? s span.start
    let (content, _) ← cutAt? rest (span.stop - span.start)
    return content
  else none

/-- The position `count` bytes before another one, which may not lie before `first`. -/
def back? (first pos count : Nat) : Checked Nat :=
  if first + count ≤ pos then some (pos - count) else none

/-- The position of the first occurrence of the needle. -/
def find? (needle s : Text) : Option Nat := (breakOn needle s).map fun cut => utf8Len cut.1

/-- The longest run of a class at the beginning of the text, and what follows it. -/
def splitRun? (p : Char → Bool) (s : Text) : Checked (Text × Text) :=
  cutAt? s (utf8Len (s.takeWhile p))

/-- The text after the character that it has to begin with. -/
def stripPrefix? (c : Char) : Text → Option Text
  | [] => none
  | d :: rest => if d = c then some rest else none

theorem cutAt?_append (before after : Text) :
    cutAt? (before ++ after) (utf8Len before) = some (before, after) := by
  induction before with
  | nil => exact cutAt?.eq_1 _
  | cons c r ih =>
      have hpos := c.utf8Size_pos
      obtain ⟨n, hn⟩ : ∃ n, utf8Len (c :: r) = n + 1 :=
        Nat.exists_eq_add_one.2 (by rw [String.utf8Len_cons]; omega)
      have hsize : n + 1 = utf8Len r + c.utf8Size := by rw [← hn, String.utf8Len_cons]
      rw [hn, List.cons_append, cutAt?, if_pos (by omega), hsize, Nat.add_sub_cancel, ih]
      rfl

/-- A cut is in place between two characters and nowhere else. -/
theorem cutAt?_eq_some_iff {s before after : Text} {pos : Nat} :
    cutAt? s pos = some (before, after) ↔ s = before ++ after ∧ utf8Len before = pos := by
  constructor
  · intro h
    fun_induction cutAt? s pos generalizing before with
    | case1 s =>
        obtain ⟨rfl, rfl⟩ := Prod.mk.inj (Option.some.inj h)
        exact ⟨rfl, rfl⟩
    | case2 => exact nomatch h
    | case3 c r pos hle ih =>
        obtain ⟨⟨first, rest⟩, hcut, heq⟩ := Option.map_eq_some_iff.1 h
        obtain ⟨rfl, rfl⟩ := Prod.mk.inj heq
        obtain ⟨rfl, hlen⟩ := ih hcut
        refine ⟨rfl, ?_⟩
        rw [String.utf8Len_cons, hlen]
        omega
    | case4 => exact nomatch h
  · rintro ⟨rfl, rfl⟩
    exact cutAt?_append before after

/-- A slice is in place if some text, the slice and some more text make up the whole. -/
theorem slice?_eq_some_iff {s content : Text} {span : Span} : slice? s span = some content ↔
    ∃ before after, s = before ++ (content ++ after) ∧ utf8Len before = span.start ∧
      span.stop = span.start + utf8Len content := by
  constructor
  · intro h
    rw [slice?] at h
    by_cases hle : span.start ≤ span.stop
    · rw [if_pos hle] at h
      obtain ⟨⟨before, rest⟩, hbefore, h⟩ := Option.bind_eq_some_iff.1 h
      obtain ⟨⟨content', after⟩, hcontent, h⟩ := Option.bind_eq_some_iff.1 h
      obtain ⟨rfl⟩ := Option.some.inj h
      obtain ⟨rfl, hstart⟩ := cutAt?_eq_some_iff.1 hbefore
      obtain ⟨rfl, hlen⟩ := cutAt?_eq_some_iff.1 hcontent
      exact ⟨before, after, rfl, hstart, by omega⟩
    · rw [if_neg hle] at h
      exact nomatch h
  · rintro ⟨before, after, rfl, hstart, hstop⟩
    have hlen : span.stop - span.start = utf8Len content := by omega
    rw [slice?, if_pos (by omega), hlen, ← hstart, Checked.bind_of_eq (cutAt?_append _ _)]
    dsimp only
    rw [Checked.bind_of_eq (cutAt?_append _ _)]
    rfl

/-- A slice in place lies in the text, its ends on boundaries. -/
theorem boundaries_of_slice? {s content : Text} {span : Span} (h : slice? s span = some content) :
    span.start ≤ span.stop ∧ span.stop ≤ utf8Len s ∧ IsBoundary s span.start ∧
      IsBoundary s span.stop := by
  obtain ⟨before, after, rfl, hstart, hstop⟩ := slice?_eq_some_iff.1 h
  refine ⟨by omega, ?_, ⟨before, content ++ after, rfl, hstart⟩,
    before ++ content, after, (List.append_assoc ..).symm, ?_⟩
  · rw [String.utf8Len_append, String.utf8Len_append]
    omega
  · rw [String.utf8Len_append]
    omega

theorem back?_eq {first pos count target : Nat} (h : target + count = pos) (hle : first ≤ target) :
    back? first pos count = some target := by
  rw [back?, if_pos (by omega), ← h, Nat.add_sub_cancel]

theorem splitRun?_eq (p : Char → Bool) (s : Text) :
    splitRun? p s = some (s.takeWhile p, s.dropWhile p) :=
  cutAt?_eq_some_iff.2 ⟨List.takeWhile_append_dropWhile.symm, rfl⟩

theorem stripPrefix?_eq_some_iff {c : Char} {s rest : Text} :
    stripPrefix? c s = some rest ↔ s = c :: rest := by
  cases s with
  | nil => exact iff_of_false (Option.some_ne_none rest).symm (List.cons_ne_nil c rest).symm
  | cons d r =>
      rw [stripPrefix?, List.cons.injEq]
      by_cases hd : d = c
      · rw [if_pos hd, Option.some.injEq]
        exact (and_iff_right hd).symm
      · rw [if_neg hd]
        exact iff_of_false (Option.some_ne_none rest).symm fun h => hd h.1

end Bytes

/-! ## Characters and bytes -/

/-- How many bytes stand before the character at the position. -/
def Source.byteOffset (src : Source) (pos : Nat) : Nat := utf8Len (src.toList.take pos)

/-- The same span, counted in bytes. -/
def Span.inBytes (s : Span) (src : Source) : Span := ⟨src.byteOffset s.start, src.byteOffset s.stop⟩

namespace Source

variable {src : Source}

theorem byteOffset_add {before content after : Text}
    (h : src.toList = before ++ (content ++ after)) :
    src.byteOffset (before.length + content.length) = utf8Len before + utf8Len content := by
  rw [byteOffset, h, ← List.append_assoc, ← List.length_append, List.take_left,
    String.utf8Len_append]

theorem byteOffset_length {before after : Text} (h : src.toList = before ++ after) :
    src.byteOffset before.length = utf8Len before := by
  rw [byteOffset, h, List.take_left]

@[simp] theorem byteOffset_zero (src : Source) : src.byteOffset 0 = 0 := by
  rw [byteOffset, List.take_zero]
  rfl

theorem byteOffset_size (src : Source) : src.byteOffset src.size = utf8Len src.toList := by
  rw [byteOffset, ← Array.length_toList, List.take_length]

/-- The next character is as many bytes further on as it takes itself. -/
theorem byteOffset_succ {pos : Nat} {c : Char} (h : src[pos]? = some c) :
    src.byteOffset (pos + 1) = src.byteOffset pos + c.utf8Size := by
  rw [← Array.getElem?_toList] at h
  rw [byteOffset, List.take_add_one, h, String.utf8Len_append, byteOffset]
  exact congrArg _ (Nat.zero_add _)

theorem byteOffset_mono (src : Source) {i j : Nat} (h : i ≤ j) :
    src.byteOffset i ≤ src.byteOffset j :=
  String.utf8Len_le_of_prefix (List.take_prefix_take_left h)

/-- Later characters stand at later positions. -/
theorem byteOffset_lt {i j : Nat} (hlt : i < j) (hle : j ≤ src.size) :
    src.byteOffset i < src.byteOffset j := by
  have hi : i < src.size := Nat.lt_of_lt_of_le hlt hle
  have hnext := byteOffset_succ (Array.getElem?_eq_getElem hi)
  have hpos := (src[i]).utf8Size_pos
  have hbytes : src.byteOffset (i + 1) ≤ src.byteOffset j := src.byteOffset_mono hlt
  omega

theorem lt_of_byteOffset_lt {i j : Nat} (h : src.byteOffset i < src.byteOffset j) : i < j :=
  Nat.lt_of_not_le fun hle => Nat.not_le.2 h (src.byteOffset_mono hle)

theorem le_of_byteOffset_le {i j : Nat} (hi : i ≤ src.size)
    (h : src.byteOffset i ≤ src.byteOffset j) : i ≤ j :=
  Nat.le_of_not_lt fun hlt => Nat.not_le.2 (byteOffset_lt hlt hi) h

end Source

namespace Span.Shows

variable {s : Span} {src : Source} {t : Text}

/-- In bytes a span is as long as its text. -/
theorem inBytes_stop (h : s.Shows src t) :
    (s.inBytes src).stop = (s.inBytes src).start + utf8Len t := by
  obtain ⟨before, after, heq, hstart, hstop⟩ := h
  show src.byteOffset s.stop = src.byteOffset s.start + utf8Len t
  rw [hstop, ← hstart, Source.byteOffset_add heq, Source.byteOffset_length heq]

/-- The bytes of a span make up its text. -/
theorem slice?_eq (h : s.Shows src t) : Bytes.slice? src.toList (s.inBytes src) = some t := by
  have hstop := h.inBytes_stop
  obtain ⟨before, after, heq, hstart, -⟩ := h
  refine Bytes.slice?_eq_some_iff.2 ⟨before, after, heq, ?_, hstop⟩
  show utf8Len before = src.byteOffset s.start
  rw [← hstart, Source.byteOffset_length heq]

end Span.Shows
end StoryTemplate
