import StoryTemplate.Proofs.Bytes.Positions
import StoryTemplate.Proofs.Source.Intact

/-! # Braces, branches and parts by bytes

    Braces are characters of one byte, and no byte of a longer character looks like one.
    So a scan of the bytes finds the pairs of a text, at the positions that count bytes.
    Groups, branches and the parts between separators are then found by slices that are
    all in place.

    Main facts: `close_bracesOf` (the pairs of the bytes are those of the text),
    `readGroup?_eq` (a group is read alike), `branch?_eq` (a span has the same branch) and
    `parts?_eq` (and the same parts). -/

namespace StoryTemplate
namespace Bytes

open String (utf8Len)

/-! ## The bytes of a text -/

/-- The bytes of a character, each as the character of the same number. -/
def encoded (c : Char) : Text := (String.utf8EncodeChar c).map Char.ofUInt8

/-- The bytes of a text. -/
def bytesOf (s : Text) : Text := s.flatMap encoded

theorem length_encoded (c : Char) : (encoded c).length = c.utf8Size := by
  rw [encoded, List.length_map, String.length_utf8EncodeChar]

theorem length_bytesOf (s : Text) : (bytesOf s).length = utf8Len s := by
  induction s with
  | nil => rfl
  | cons c r ih =>
      rw [bytesOf, List.flatMap_cons, List.length_append, length_encoded, String.utf8Len_cons, ← ih,
        Nat.add_comm]
      rfl

theorem bytesOf_append (s t : Text) : bytesOf (s ++ t) = bytesOf s ++ bytesOf t :=
  List.flatMap_append ..

/-- A byte is the character itself, or it stands for no character of one byte. -/
theorem eq_or_le_of_mem_encoded {b c : Char} (h : b ∈ encoded c) : b = c ∨ 128 ≤ b.toNat := by
  obtain ⟨byte, hbyte, rfl⟩ := List.mem_map.1 h
  have hnumber : (Char.ofUInt8 byte).toNat = byte.toNat := rfl
  rw [hnumber]
  by_cases hascii : c.val.toNat ≤ 127
  · rw [String.utf8EncodeChar, if_pos hascii] at hbyte
    obtain rfl := List.mem_singleton.1 hbyte
    refine .inl (Char.ext (UInt32.toNat_inj.1 ?_))
    show (UInt8.ofNat c.val.toNat).toNat = _
    exact UInt8.toNat_ofNat_of_lt' (Nat.lt_of_le_of_lt hascii (by decide))
  · right
    have hlarge : ∀ {n : Nat}, 128 ≤ n → n < 256 → byte = UInt8.ofNat n → 128 ≤ byte.toNat := by
      rintro n hle hlt rfl
      rwa [UInt8.toNat_ofNat_of_lt' hlt]
    rw [String.utf8EncodeChar, if_neg hascii] at hbyte
    split at hbyte
    · simp only [List.mem_cons, List.not_mem_nil, or_false] at hbyte
      rcases hbyte with hbyte | hbyte <;> exact hlarge (by omega) (by omega) hbyte
    · split at hbyte
      · simp only [List.mem_cons, List.not_mem_nil, or_false] at hbyte
        rcases hbyte with hbyte | hbyte | hbyte <;> exact hlarge (by omega) (by omega) hbyte
      · simp only [List.mem_cons, List.not_mem_nil, or_false] at hbyte
        rcases hbyte with hbyte | hbyte | hbyte | hbyte <;>
          exact hlarge (by omega) (by omega) hbyte

/-- The bytes of a character that is no brace are none either. -/
theorem noBrace_of_mem_encoded {b c : Char} (hc : NoBrace c) (h : b ∈ encoded c) : NoBrace b := by
  rcases eq_or_le_of_mem_encoded h with rfl | hlarge
  · exact hc
  · constructor <;> rintro rfl <;> exact absurd hlarge (by decide)

/-! ## Pairs -/

/-- The pairs of the braces among the bytes of the text. -/
def bracesOf (s : Text) : BraceMap := .ofText (bytesOf s)

theorem closingOffset_append {run : Text} (h : ∀ c ∈ run, NoBrace c) (depth : Nat) (s : Text) :
    closingOffset depth (run ++ s) = (closingOffset depth s).map (run.length + ·) := by
  induction run with
  | nil =>
      rw [List.nil_append, List.length_nil]
      simp
  | cons c r ih =>
      obtain ⟨hc, hr⟩ := List.forall_mem_cons.1 h
      rw [List.cons_append, closingOffset_cons hc, ih hr, Option.map_map]
      congr 1
      funext n
      show r.length + n + 1 = r.length + 1 + n
      omega

/-- The end of the enclosing group is found by bytes where it is found by characters. -/
theorem closingOffset_bytesOf (depth : Nat) (s : Text) :
    closingOffset depth (bytesOf s) =
      (closingOffset depth s).map fun n => utf8Len (s.take n) := by
  induction s generalizing depth with
  | nil => exact closingOffset_nil depth
  | cons c r ih =>
      -- The bytes of the first character come first, however deep the group.
      have hstep : ∀ {d : Nat}, ((closingOffset d (bytesOf r)).map (c.utf8Size + ·)) =
          ((closingOffset d r).map (· + 1)).map fun n => utf8Len ((c :: r).take n) := by
        intro d
        rw [ih, Option.map_map, Option.map_map]
        congr 1
        funext n
        exact Nat.add_comm _ _
      rcases brace_cases c with rfl | rfl | hc
      · rw [closingOffset_open, ← hstep]
        exact (closingOffset_open depth (bytesOf r)).trans
          (congrArg (Option.map · _) (funext fun n => Nat.add_comm n 1))
      · cases depth with
        | zero => rfl
        | succ d =>
            rw [closingOffset_close_succ, ← hstep]
            exact (closingOffset_close_succ d (bytesOf r)).trans
              (congrArg (Option.map · _) (funext fun n => Nat.add_comm n 1))
      · rw [closingOffset_cons hc, ← hstep, ← length_encoded]
        exact closingOffset_append (fun b hb => noBrace_of_mem_encoded hc hb) depth _

/-- The pair of a brace at the beginning of a text. -/
theorem close_bracesOf_zero (s : Text) :
    (bracesOf s).close 0 = ((BraceMap.ofText s).close 0).map fun n => utf8Len (s.take n) := by
  rw [bracesOf, BraceMap.close_ofText, BraceMap.close_ofText]
  cases s with
  | nil => rfl
  | cons c r =>
      by_cases hc : c = '\x7b'
      · subst hc
        have hbytes : (bytesOf ('\x7b' :: r)).drop (0 + 1) = bytesOf r := rfl
        have hfirst : ('\x7b' :: r)[0]? = some '\x7b' := rfl
        rw [if_pos (show (bytesOf ('\x7b' :: r))[0]? = some '\x7b' from rfl), if_pos hfirst, hbytes,
          closingOffset_bytesOf, Option.map_map]
        show _ = (Option.map (0 + 1 + ·) (closingOffset 0 r)).map _
        rw [Option.map_map]
        congr 1
        funext n
        show 0 + 1 + utf8Len (r.take n) = utf8Len (('\x7b' :: r).take (0 + 1 + n))
        rw [show 0 + 1 + n = n + 1 by omega, List.take_succ_cons, String.utf8Len_cons, Nat.add_comm]
        rfl
      · have hfirst : (bytesOf (c :: r))[0]? ≠ some '\x7b' := by
          intro h
          have hsize : 0 < (encoded c).length := length_encoded c ▸ c.utf8Size_pos
          rw [bytesOf, List.flatMap_cons, List.getElem?_append_left hsize] at h
          rcases eq_or_le_of_mem_encoded (List.mem_of_getElem? h) with heq | hlarge
          · exact hc heq.symm
          · exact absurd hlarge (by decide)
        have hplain : (c :: r)[0]? ≠ some '\x7b' := fun h => hc (Option.some.inj h)
        rw [if_neg hfirst, if_neg hplain]
        rfl

/-- The pairs of the bytes of a text are the pairs of the text. -/
theorem close_bracesOf (src : Source) (o : Nat) :
    (bracesOf src.toList).close (src.byteOffset o) =
      ((BraceMap.ofText src.toList).close o).map src.byteOffset := by
  have hsplit := List.take_append_drop o src.toList
  generalize hbefore : src.toList.take o = before at hsplit
  generalize src.toList.drop o = s at hsplit
  by_cases ho : o ≤ src.toList.length
  · have hlen : before.length = o := by rw [← hbefore, List.length_take, Nat.min_eq_left ho]
    have hoffset : src.byteOffset o = (bytesOf before).length + 0 := by
      rw [Source.byteOffset, hbefore, length_bytesOf, Nat.add_zero]
    have hzero : (BraceMap.ofText (bytesOf s)).close 0 = _ := close_bracesOf_zero s
    have hclose := BraceMap.close_append_right before s 0
    rw [Nat.add_zero, hsplit, hlen] at hclose
    rw [hoffset, hclose, bracesOf, ← hsplit, bytesOf_append, BraceMap.close_append_right, hzero,
      Option.map_map, Option.map_map]
    congr 1
    funext n
    show (bytesOf before).length + utf8Len (s.take n) = src.byteOffset (o + n)
    rw [Source.byteOffset, ← hsplit, ← hlen, List.take_length_add_append, String.utf8Len_append,
      length_bytesOf]
  · have hend : src.byteOffset o = (bytesOf src.toList).length := by
      rw [Source.byteOffset, List.take_of_length_le (by omega), length_bytesOf]
    rw [bracesOf, BraceMap.close_ofText, BraceMap.close_ofText, hend,
      List.getElem?_eq_none (Nat.le_refl _), List.getElem?_eq_none (by omega)]
    rfl

/-! ## Groups -/

/-- Reads what stands between the brace at the position and the one that closes it. -/
def readGroup? {α : Type} (braces : BraceMap) (read : Span → Checked (Option α)) (opened : Nat) :
    Checked (Option (α × Nat)) :=
  match braces.close opened with
  | none => some none
  | some close => (read ⟨opened + 1, close⟩).map fun found => found.map (·, close)

variable {src : Source} {s : Span} {t : Text}

/-- An opening brace takes up one byte. -/
theorem byteOffset_open_succ {o c : Nat} (h : (BraceMap.ofText src.toList).close o = some c) :
    src.byteOffset (o + 1) = src.byteOffset o + 1 := by
  have hbrace := BraceMap.getElem?_of_close h
  rw [Array.getElem?_toList] at hbrace
  exact Source.byteOffset_succ hbrace

/-- A closing brace takes up one byte. -/
theorem byteOffset_close_succ {o c : Nat} (h : (BraceMap.ofText src.toList).close o = some c) :
    src.byteOffset (c + 1) = src.byteOffset c + 1 := by
  have hbrace := BraceMap.getElem?_close h
  rw [Array.getElem?_toList] at hbrace
  exact Source.byteOffset_succ hbrace

theorem close_of_readGroup? {α : Type} {braces : BraceMap} {read : Span → Checked (Option α)}
    {opened close : Nat} {value : α}
    (h : readGroup? braces read opened = some (some (value, close))) :
    braces.close opened = some close := by
  rw [readGroup?] at h
  cases hclose : braces.close opened with
  | none =>
      rw [hclose] at h
      exact nomatch h
  | some c =>
      rw [hclose] at h
      obtain ⟨found, -, hfound⟩ := Option.map_eq_some_iff.1 h
      obtain ⟨value', -, heq⟩ := Option.map_eq_some_iff.1 hfound
      rw [(Prod.mk.inj heq).2]

/-- Groups are read by bytes as they are by characters if what stands in them is. -/
theorem readGroup?_eq {α : Type} {read? : Span → Checked (Option α)} {read : Span → Option α}
    {move : α → α}
    (h : ∀ {s : Span} {t : Text}, s.Shows src t → read? (s.inBytes src) = some ((read s).map move))
    (opened : Nat) :
    readGroup? (bracesOf src.toList) read? (src.byteOffset opened) =
      some (((BraceMap.ofText src.toList).readGroup read opened).map fun found =>
        (move found.1, src.byteOffset found.2)) := by
  rw [readGroup?, close_bracesOf, BraceMap.readGroup]
  cases hclose : (BraceMap.ofText src.toList).close opened with
  | none => rfl
  | some close =>
      have hread := h (Span.Intact.inner hclose).shows_text
      rw [Span.inBytes, byteOffset_open_succ hclose] at hread
      dsimp only [Option.map_some, Option.bind_some]
      rw [hread, Option.map_some, Option.map_map, Option.map_map]
      rfl

/-! ## Branches -/

/-- The part of the span that counts as a branch. -/
def branch? (s : Text) (span : Span) : Checked Span := do
  let content ← slice? s span
  let start ← back? span.start span.stop (utf8Len (trimStart content))
  return ⟨start, start + utf8Len (branchText content)⟩

/-- What is left of the text after the leading white space tells where the branch begins. -/
theorem back?_trimStart (h : s.Shows src t) {first : Nat} (hle : first ≤ s.start) :
    back? (src.byteOffset first) (src.byteOffset s.stop) (utf8Len (trimStart t)) =
      some (src.byteOffset (s.branch src).start) := by
  rw [Span.branch, Span.dropSpace_start]
  exact back?_eq h.skipBlank.inBytes_stop.symm
    (Source.byteOffset_mono src (Nat.le_trans hle (s.start_le_skipBlank src)))

/-- The branch is as long as its text. -/
theorem inBytes_branch (h : s.Shows src t) : (s.branch src).inBytes src =
    ⟨src.byteOffset (s.branch src).start,
      src.byteOffset (s.branch src).start + utf8Len (branchText t)⟩ := by
  have hstop : src.byteOffset (s.branch src).stop = _ := h.branch.inBytes_stop
  rw [Span.inBytes, hstop]
  rfl

theorem branch?_eq (h : s.Shows src t) :
    branch? src.toList (s.inBytes src) = some ((s.branch src).inBytes src) := by
  have hback : back? (s.inBytes src).start (s.inBytes src).stop (utf8Len (trimStart t)) =
      some (src.byteOffset (s.branch src).start) := back?_trimStart h (Nat.le_refl _)
  rw [branch?, Checked.bind_of_eq h.slice?_eq, Checked.bind_of_eq hback, inBytes_branch h]
  rfl

/-! ## Parts -/

/-- A slice that is not empty ends behind its beginning. -/
theorem lt_of_slice? {s r : Text} {c : Char} {pos stop : Nat}
    (h : slice? s ⟨pos, stop⟩ = some (c :: r)) : pos < stop := by
  obtain ⟨-, -, -, -, hstop⟩ := slice?_eq_some_iff.1 h
  have hsize := c.utf8Size_pos
  rw [String.utf8Len_cons] at hstop
  simp only at hstop
  omega

/-- The parts of the bytes from `pos` to `stop`, the first of which began at `start`. -/
def partsFrom? (s : Text) (braces : BraceMap) (sep : Char) (stop start pos : Nat) :
    Checked (List Span) :=
  match _h : slice? s ⟨pos, stop⟩ with
  | none => none
  | some [] => some [⟨start, stop⟩]
  | some (c :: _) =>
      if c = '\x7b' then
        match _hclose : (braces.close pos).filter (· < stop) with
        | some close => partsFrom? s braces sep stop start (close + 1)
        | none => partsFrom? s braces sep stop start (pos + c.utf8Size)
      else if c = sep then
        (partsFrom? s braces sep stop (pos + c.utf8Size) (pos + c.utf8Size)).map (⟨start, pos⟩ :: ·)
      else partsFrom? s braces sep stop start (pos + c.utf8Size)
termination_by stop - pos
decreasing_by
  all_goals have := lt_of_slice? _h
  all_goals have := c.utf8Size_pos
  · have := BraceMap.lt_of_close (Option.filter_eq_some_iff.1 _hclose).1
    omega
  all_goals omega

/-- The parts of the span between the separators that lie in no closed group. -/
def parts? (s : Text) (braces : BraceMap) (sep : Char) (span : Span) : Checked (List Span) :=
  partsFrom? s braces sep span.stop span.start span.start

/-- A group ends before a position in bytes if it does in characters. -/
theorem filter_close_bracesOf {stop : Nat} (hstop : stop ≤ src.size) (o : Nat) :
    ((bracesOf src.toList).close (src.byteOffset o)).filter (· < src.byteOffset stop) =
      (((BraceMap.ofText src.toList).close o).filter (· < stop)).map src.byteOffset := by
  rw [close_bracesOf]
  cases hc : (BraceMap.ofText src.toList).close o with
  | none => rfl
  | some c =>
      rw [Option.map_some]
      by_cases hin : c < stop
      · have hbytes := Source.byteOffset_lt hin hstop
        rw [Option.filter_some_pos (by simpa using hbytes),
          Option.filter_some_pos (by simpa using hin)]
        rfl
      · have hout : ¬ src.byteOffset c < src.byteOffset stop := fun h =>
          hin (Source.lt_of_byteOffset_lt h)
        rw [Option.filter_some_neg (by simpa using hout),
          Option.filter_some_neg (by simpa using hin)]
        rfl

/-- Before the end of a span stands a character, with which the slice up to there begins. -/
theorem exists_slice? {pos stop : Nat} (hlt : pos < stop) (hstop : stop ≤ src.size) :
    ∃ c r, src[pos]? = some c ∧
      slice? src.toList ⟨src.byteOffset pos, src.byteOffset stop⟩ = some (c :: r) := by
  have hshow : (Span.mk pos stop).Shows src _ := .of_le (Nat.le_of_lt hlt) hstop
  have hlen := hshow.stop_eq
  cases htext : (Span.mk pos stop).text src with
  | nil =>
      rw [htext, List.length_nil] at hlen
      simp only at hlen
      omega
  | cons c r =>
      rw [htext] at hshow
      exact ⟨c, r, hshow.head, hshow.slice?_eq⟩

theorem partsFrom?_nil {s : Text} {braces : BraceMap} {sep : Char} {stop start pos : Nat}
    (h : slice? s ⟨pos, stop⟩ = some []) :
    partsFrom? s braces sep stop start pos = some [⟨start, stop⟩] := by
  rw [partsFrom?]
  split
  · rename_i hnone
    cases h.symm.trans hnone
  · rfl
  · rename_i hcons
    cases h.symm.trans hcons

theorem partsFrom?_cons {s r : Text} {braces : BraceMap} {sep c : Char} {stop start pos : Nat}
    (h : slice? s ⟨pos, stop⟩ = some (c :: r)) :
    partsFrom? s braces sep stop start pos =
      if c = '\x7b' then
        match (braces.close pos).filter (· < stop) with
        | some close => partsFrom? s braces sep stop start (close + 1)
        | none => partsFrom? s braces sep stop start (pos + c.utf8Size)
      else if c = sep then
        (partsFrom? s braces sep stop (pos + c.utf8Size) (pos + c.utf8Size)).map (⟨start, pos⟩ :: ·)
      else partsFrom? s braces sep stop start (pos + c.utf8Size) := by
  rw [partsFrom?]
  split
  · rename_i hnone
    cases h.symm.trans hnone
  · rename_i hnil
    cases h.symm.trans hnil
  · rename_i hcons
    cases h.symm.trans hcons
    refine ite_congr rfl (fun _ => ?_) fun _ => rfl
    split <;> rename_i hclose <;> rw [hclose]

theorem partsFrom?_eq {sep : Char} (hsep : sep ≠ '\x7b') {stop start pos : Nat}
    (hpos : pos ≤ stop) (hstop : stop ≤ src.size) :
    partsFrom? src.toList (bracesOf src.toList) sep (src.byteOffset stop) (src.byteOffset start)
      (src.byteOffset pos) =
        some ((Span.partsFrom src (.ofText src.toList) sep stop start pos).map
          (Span.inBytes · src)) := by
  fun_induction Span.partsFrom src (.ofText src.toList) sep stop start pos with
  | case1 start pos hlt close hc ih =>
      obtain ⟨hclose, hin⟩ := Option.filter_eq_some_iff.1 hc
      obtain ⟨c, r, hat, hslice⟩ := exists_slice? hlt hstop
      have hopen := BraceMap.getElem?_of_close hclose
      rw [Array.getElem?_toList, hat, Option.some.injEq] at hopen
      rw [partsFrom?_cons hslice, if_pos hopen, filter_close_bracesOf hstop, hc, Option.map_some]
      dsimp only
      rw [← byteOffset_close_succ hclose]
      exact ih (of_decide_eq_true hin)
  | case2 start pos hlt hc hsepAt ih =>
      obtain ⟨c, r, hat, hslice⟩ := exists_slice? hlt hstop
      have hc' : c = sep := by
        rw [Source.isAt, hat] at hsepAt
        simpa using hsepAt
      rw [partsFrom?_cons hslice, if_neg (hc' ▸ hsep), if_pos hc', ← Source.byteOffset_succ hat,
        ih hlt]
      rfl
  | case3 start pos hlt hc hsepAt ih =>
      obtain ⟨c, r, hat, hslice⟩ := exists_slice? hlt hstop
      have hc' : c ≠ sep := by
        rw [Source.isAt, hat] at hsepAt
        simpa using hsepAt
      rw [partsFrom?_cons hslice, filter_close_bracesOf hstop, hc, Option.map_none, if_neg hc',
        ite_self, ← Source.byteOffset_succ hat]
      exact ih hlt
  | case4 start pos hlt =>
      obtain rfl : pos = stop := by omega
      have hshow : (Span.mk pos pos).Shows src _ := .of_le (Nat.le_refl _) hstop
      have hempty : (Span.mk pos pos).text src = [] := by
        rw [Span.text, Array.extract_eq_empty_of_le (by simp)]
      rw [hempty] at hshow
      rw [partsFrom?_nil hshow.slice?_eq]
      rfl

/-- Each part but the first has the separator in front of it. -/
theorem isAt_before_part {sep : Char} {braces : BraceMap} {stop start pos : Nat} {part : Span}
    (h : part ∈ Span.partsFrom src braces sep stop start pos) :
    part.start = start ∨ src.isAt sep (part.start - 1) = true := by
  fun_induction Span.partsFrom src braces sep stop start pos with
  | case1 start pos hlt close hc ih => exact ih h
  | case2 start pos hlt hc hat ih =>
      rcases List.mem_cons.1 h with rfl | h
      · exact .inl rfl
      · rcases ih h with heq | hbefore
        · refine .inr ?_
          rwa [heq, Nat.add_sub_cancel]
        · exact .inr hbefore
  | case3 start pos hlt hc hat ih => exact ih h
  | case4 start pos hlt => exact .inl (congrArg Span.start (List.mem_singleton.1 h))

/-- A span is divided into the same parts, and all slices are in place. -/
theorem parts?_eq (h : s.Shows src t) {sep : Char} (hsep : sep ≠ '\x7b') :
    parts? src.toList (bracesOf src.toList) sep (s.inBytes src) =
      some ((s.parts src (.ofText src.toList) sep).map (Span.inBytes · src)) :=
  partsFrom?_eq hsep h.start_le h.stop_le

end Bytes
end StoryTemplate
