import StoryTemplate.Injection.Expansion
import StoryTemplate.Pass
import StoryTemplate.Proofs.Code.Written

/-! # Canonical lines — what is read can be written

    A line of code may be spaced in many ways: the reader trims it up to three times,
    cuts at the first space behind the white space that it trimmed, and drops the empty
    tokens at the end of a body.  What it declares always has a written line all the
    same.  A label is cut off at a space, and white space around it is gone by then; a
    token is cut off at a bar, and the last one is not empty; an entry is cut at its only
    colon.  So the fields are such that the written line is cut at the same places.

    Main facts: `Declaration.readable_of_read` (the fields of what is read),
    `Declaration.read_line` (what has such fields is read back) and from them
    `Declaration.read_canonical`. -/

namespace StoryTemplate
namespace Declaration

open CodeLine (IsLabel IsField startsWith_append)

variable {line rest body id data token : Text} {entries : List (Text × Text)}
  {declaration : Declaration} {object : MetaObject}

/-! ## Labels -/

/-- The first space of a trimmed text divides it into a label and a text that does not end
    with white space. -/
theorem isLabel_of_splitFirst {s before after : Text}
    (h : splitFirst ' ' (trim s) = some (before, after)) :
    IsLabel before ∧ after ≠ [] ∧ after.getLast?.any isBlank = false := by
  obtain ⟨hs, hspace⟩ := splitFirst_eq_some h
  have hstart := startsWith_trim s
  have hend := getLast?_trim s
  rw [hs] at hstart hend
  have hbefore : before ≠ [] := by
    rintro rfl
    cases hstart
  have hafter : after ≠ [] := by
    rintro rfl
    rw [List.getLast?_concat] at hend
    cases hend
  rw [startsWith_append hbefore] at hstart
  rw [List.getLast?_append_of_ne_nil _ (List.cons_ne_nil _ _),
    List.getLast?_cons_of_ne_nil hafter] at hend
  exact ⟨⟨hbefore, hspace, hstart⟩, hafter, hend⟩

theorem isLabel_of_readId (h : readId (trim body) = .ok (id, data)) : IsLabel id := by
  rw [readId] at h
  split at h
  · rename_i before after hcut
    by_cases hempty : before = [] ∨ after = []
    · rw [if_pos hempty] at h
      cases h
    · rw [if_neg hempty] at h
      obtain ⟨rfl, -⟩ := Prod.mk.inj (Except.ok.inj h)
      exact (isLabel_of_splitFirst hcut).1
  · cases h

/-! ## Tokens and entries -/

theorem not_mem_of_mem_tokens (h : token ∈ tokens data) : '|' ∉ token := by
  have hpart := (List.dropWhile_suffix _).subset (List.mem_reverse.1 h)
  exact not_mem_of_mem_splitAll (List.mem_reverse.1 hpart)

theorem getLast?_tokens (data : Text) : (tokens data).getLast? ≠ some [] := by
  intro h
  rw [tokens, List.getLast?_reverse] at h
  have hhead := List.head?_dropWhile_not (fun token : Text => token = []) (splitAll '|' data).reverse
  rw [h] at hhead
  cases hhead

/-- The two sides of an entry hold no colon, and no bar if the token holds none. -/
theorem isField_of_readEntry {entry : Text × Text} (hbar : '|' ∉ token)
    (h : readEntry token = .ok entry) : IsField entry.1 ∧ IsField entry.2 := by
  rw [readEntry] at h
  split at h
  · rename_i key value hparts
    have hpart : ∀ part ∈ [key, value], ':' ∉ part ∧ '|' ∉ part := by
      intro part hmem
      rw [← hparts] at hmem
      refine ⟨not_mem_of_mem_splitAll hmem, ?_⟩
      intro hpart
      exact hbar ((infix_of_mem_splitAll hmem).subset hpart)
    by_cases hempty : key = [] ∨ value = []
    · rw [if_pos hempty] at h
      cases h
    · rw [if_neg hempty] at h
      obtain rfl := Except.ok.inj h
      obtain ⟨hkey, hvalue⟩ := not_or.1 hempty
      exact ⟨⟨hkey, hpart key List.mem_cons_self⟩, hvalue,
        hpart value (List.mem_cons_of_mem key List.mem_cons_self)⟩
  · cases h

theorem isField_of_mapM {tokens : List Text} (hbar : ∀ token ∈ tokens, '|' ∉ token)
    (h : tokens.mapM readEntry = .ok entries) :
    ∀ entry ∈ entries, IsField entry.1 ∧ IsField entry.2 := by
  induction tokens generalizing entries with
  | nil =>
      obtain rfl := Except.ok.inj h
      exact List.forall_mem_nil _
  | cons token tokens ih =>
      obtain ⟨htoken, htokens⟩ := List.forall_mem_cons.1 hbar
      rw [List.mapM_cons] at h
      obtain ⟨entry, hentry, h⟩ := bind_eq_ok_iff.1 h
      obtain ⟨others, hothers, h⟩ := bind_eq_ok_iff.1 h
      obtain rfl := Except.ok.inj h
      exact List.forall_mem_cons.2
        ⟨isField_of_readEntry htoken hentry, ih htokens hothers⟩

/-! ## Lines -/

theorem readable_of_readInjection (h : readInjection (trim rest) = .ok declaration) :
    declaration.line.Readable := by
  rw [readInjection] at h
  split at h
  · rename_i name value hcut
    obtain rfl := Except.ok.inj h
    exact isLabel_of_splitFirst hcut
  · cases h

theorem readable_of_readMetaObject (h : readMetaObject rest = .ok object) :
    (metaObject object).line.Readable := by
  unfold readMetaObject at h
  split at h
  · obtain ⟨⟨id, data⟩, hid, h⟩ := bind_eq_ok_iff.1 h
    obtain ⟨entries, hentries, h⟩ := bind_eq_ok_iff.1 h
    obtain rfl := Except.ok.inj h
    refine ⟨isLabel_of_readId hid, ?_⟩
    intro entry hentry
    have hmem := (Dict.mem_entries_insertAll hentry).resolve_left List.not_mem_nil
    exact isField_of_mapM (fun token => not_mem_of_mem_tokens) hentries entry hmem
  · obtain ⟨⟨id, data⟩, hid, h⟩ := bind_eq_ok_iff.1 h
    obtain rfl := Except.ok.inj h
    exact ⟨isLabel_of_readId hid, fun token => not_mem_of_mem_tokens, getLast?_tokens data⟩
  · cases h
  · cases h

/-- Whatever a line declares has fields that can be written. -/
theorem readable_of_read (h : read line = .ok (some declaration)) :
    declaration.line.Readable := by
  unfold read at h
  split at h
  · cases h
  · split at h
    · obtain ⟨injection, hread, heq⟩ := map_eq_ok_iff.1 h
      obtain rfl := Option.some.inj heq
      exact readable_of_readInjection hread
    · obtain ⟨object, hread, heq⟩ := map_eq_ok_iff.1 h
      obtain rfl := Option.some.inj heq
      exact readable_of_readMetaObject hread
    · cases h
    · cases h

/-- What can be written is read back. -/
theorem read_line (h : declaration.line.Readable) :
    read declaration.line.text = .ok (some declaration) := by
  rw [CodeLine.read_text h, declaration.declares?_line]

/-- What a line declares has fields that can be written, and the line that is written is
    read as the same declaration.  An injection that is declared always has a value to put
    in, whatever it hides. -/
theorem read_canonical (line : Text) (declaration : Declaration)
    (h : read line = .ok (some declaration)) :
    declaration.line.Readable ∧ read declaration.line.text = .ok (some declaration) ∧
      ∀ name value, declaration = .injection name value → ∀ source : Dict Text,
        injectedValue? (source.insert name value) name = some value := by
  have hreadable := readable_of_read h
  refine ⟨hreadable, read_line hreadable, ?_⟩
  rintro name value rfl source
  obtain ⟨-, hvalue, -⟩ := hreadable
  rw [injectedValue?, Dict.get?_insert_self]
  exact Option.filter_some_pos (decide_eq_true hvalue)

/-- A tab is no space and may stand in an id, which begins right behind the letter of the
    type; of the two entries for a key the later one is left, and of the bars at the end
    one. -/
theorem read_canonical_glued :
    let line := "<\tmé\tid  b:2|a:0|a: 1|||\t".toList
    let declaration : Declaration :=
      .metaObject (.map ⟨"é\tid".toList, .ofList [("a".toList, " 1".toList), (" b".toList, "2".toList)]⟩)
    read line = .ok (some declaration) ∧ declaration.line.Readable ∧
      declaration.line.text = "< m é\tid  b:2|a: 1|".toList ∧
      read declaration.line.text = .ok (some declaration) := by
  intro line declaration
  have hline : read line = .ok (some declaration) := by decide +kernel
  obtain ⟨hreadable, hread, -⟩ := read_canonical line declaration hline
  refine ⟨hline, hreadable, ?_, hread⟩
  decide +kernel

end Declaration
end StoryTemplate
