import StoryTemplate.Proofs.Bytes.Braces

/-! # Nesting — why the spans on a work stack are safe

    The passes keep spans of one text on a stack and look into them with the pairs of
    the whole text.  That no slice fails there rests on one invariant: a group that
    begins in such a span ends in it.  By bytes, a `Safe` span is in place, whatever is
    read from a position in it ends in it, and the places in what is read lie between
    its braces and hold the ends of all groups that begin in them.

    Main fact: `safe_inBytes` (a span is safe by bytes if it is intact). -/

namespace StoryTemplate
namespace Bytes

open String (utf8Len)

/-- The span lies in the text, and it begins and ends between two characters. -/
structure InPlace (s : Text) (span : Span) : Prop where
  le : span.start ≤ span.stop
  size : span.stop ≤ utf8Len s
  start : IsBoundary s span.start
  stop : IsBoundary s span.stop

/-- The span is in place between the braces at the two positions, and every brace that
    opens in it closes in it. -/
structure Within (s : Text) (opened close : Nat) (span : Span) : Prop where
  inPlace : InPlace s span
  after : opened < span.start
  before : span.stop ≤ close
  closed : ∀ o, span.start ≤ o → o < span.stop → (bytesOf s)[o]? = some '\x7b' →
    ∃ c, (bracesOf s).close o = some c ∧ c < span.stop

/-- The span is in place, and a reader that finds something in it finds all of it there:
    the closing brace, and between the braces the places of what was read. -/
structure Safe {α : Type} (s : Text) (read : Nat → Checked (Option (α × Nat)))
    (places : α → List Span) (span : Span) : Prop where
  inPlace : InPlace s span
  group : ∀ opened value close, span.start ≤ opened → opened < span.stop →
    read opened = some (some (value, close)) →
      close + 1 ≤ span.stop ∧ ∀ place ∈ places value, Within s opened close place

/-- A byte that is an opening brace is a character. -/
theorem exists_of_brace {s : Text} {pos : Nat} (h : (bytesOf s)[pos]? = some '\x7b') :
    ∃ before after, s = before ++ '\x7b' :: after ∧ utf8Len before = pos := by
  induction s generalizing pos with
  | nil => exact nomatch h
  | cons c r ih =>
      rw [bytesOf, List.flatMap_cons] at h
      by_cases hlt : pos < (encoded c).length
      · rw [List.getElem?_append_left hlt] at h
        rcases eq_or_le_of_mem_encoded (List.mem_of_getElem? h) with rfl | hlarge
        · obtain rfl : pos = 0 := Nat.lt_one_iff.1 hlt
          exact ⟨[], r, rfl, rfl⟩
        · exact absurd hlarge (by decide)
      · rw [List.getElem?_append_right (Nat.le_of_not_lt hlt)] at h
        obtain ⟨before, after, rfl, hlen⟩ := ih h
        rw [length_encoded] at hlt hlen
        exact ⟨c :: before, after, rfl, by rw [String.utf8Len_cons]; omega⟩

variable {src : Source}

theorem exists_byteOffset {pos : Nat} (h : (bytesOf src.toList)[pos]? = some '\x7b') :
    ∃ i, src[i]? = some '\x7b' ∧ src.byteOffset i = pos := by
  obtain ⟨before, after, heq, rfl⟩ := exists_of_brace h
  refine ⟨before.length, ?_, Source.byteOffset_length heq⟩
  rw [← Array.getElem?_toList, heq, List.getElem?_append_right (Nat.le_refl _), Nat.sub_self,
    List.getElem?_cons_zero]

/-- Only a character closes in the bytes. -/
theorem exists_of_close_bracesOf {pos close : Nat}
    (h : (bracesOf src.toList).close pos = some close) : ∃ i, src.byteOffset i = pos := by
  obtain ⟨i, -, hi⟩ := exists_byteOffset (BraceMap.getElem?_of_close h)
  exact ⟨i, hi⟩

theorem inPlace_inBytes {span : Span} {t : Text} (h : span.Shows src t) :
    InPlace src.toList (span.inBytes src) := by
  obtain ⟨hle, hsize, hstart, hstop⟩ := boundaries_of_slice? h.slice?_eq
  exact ⟨hle, hsize, hstart, hstop⟩

/-- A part of a group that is intact holds the ends of all groups that begin in it: they
    have ends, since the group around them has one. -/
theorem within_inBytes {opened close : Nat} {span : Span}
    (hclose : (BraceMap.ofText src.toList).close opened = some close) (hspan : span.Intact src)
    (hafter : opened < span.start) (hbefore : span.stop ≤ close) :
    Within src.toList (src.byteOffset opened) (src.byteOffset close) (span.inBytes src) where
  inPlace := inPlace_inBytes hspan.shows_text
  after := Source.byteOffset_lt hafter (Nat.le_trans hspan.le hspan.size)
  before := Source.byteOffset_mono src hbefore
  closed := fun o hstart hstop hbrace => by
    obtain ⟨i, hi, rfl⟩ := exists_byteOffset hbrace
    have hle := Source.le_of_byteOffset_le (Nat.le_trans hspan.le hspan.size) hstart
    have hlt := Source.lt_of_byteOffset_lt hstop
    rw [← Array.getElem?_toList] at hi
    obtain ⟨c, hc, -⟩ := BraceMap.close_inside hclose (by omega) (by omega) hi
    refine ⟨src.byteOffset c, by rw [close_bracesOf, hc]; rfl, ?_⟩
    exact Source.byteOffset_lt (hspan.inside i c hle hlt hc) hspan.size

/-- An intact span is safe for a reader of groups that reads by bytes what is read by
    characters. -/
theorem safe_inBytes {α : Type} {read? : Span → Checked (Option α)} {read : Span → Option α}
    {move : α → α} {places : α → List Span} {span : Span} (hspan : span.Intact src)
    (hread : ∀ {s : Span} {t : Text}, s.Shows src t →
      read? (s.inBytes src) = some ((read s).map move))
    (hplaces : ∀ value, places (move value) = (places value).map (Span.inBytes · src))
    (hgroup : ∀ {o value c}, (BraceMap.ofText src.toList).readGroup read o = some (value, c) →
      ∀ place ∈ places value, place.Intact src ∧ o < place.start ∧ place.stop ≤ c) :
    Safe src.toList (readGroup? (bracesOf src.toList) read?) places (span.inBytes src) where
  inPlace := inPlace_inBytes hspan.shows_text
  group := fun opened value close hstart hstop hsome => by
    obtain ⟨o, rfl⟩ := exists_of_close_bracesOf (close_of_readGroup? hsome)
    rw [readGroup?_eq hread, Option.some.injEq] at hsome
    obtain ⟨⟨value, c⟩, hparse, heq⟩ := Option.map_eq_some_iff.1 hsome
    obtain ⟨rfl, rfl⟩ := Prod.mk.inj heq
    have hclose := (BraceMap.readGroup_eq_some.1 hparse).1
    have hle := Source.le_of_byteOffset_le (Nat.le_trans hspan.le hspan.size) hstart
    have hlt := Source.lt_of_byteOffset_lt hstop
    have hin := Source.byteOffset_lt (hspan.inside o c hle hlt hclose) hspan.size
    refine ⟨hin, ?_⟩
    rw [hplaces, List.forall_mem_map]
    intro place hplace
    obtain ⟨hintact, hafter, hbefore⟩ := hgroup hparse place hplace
    exact within_inBytes hclose hintact hafter hbefore

end Bytes
end StoryTemplate
