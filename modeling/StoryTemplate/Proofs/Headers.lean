import StoryTemplate.Proofs.Code.Conversion
import StoryTemplate.Proofs.Code.Reading
import StoryTemplate.Proofs.CommandLine.Printing

/-! # Headers are printed as they are read

    A header line is read by dropping all spaces but one between its parts, and of the
    lines with one key the last one counts.  Printing gives one line for each key, in the
    order of the keys, with just the spaces that are left.  So what is printed is read as
    the same headers again.

    The route:

    * `isHeader_of_headerEntry?` says what an entry is: a key and parts with single
      spaces between them, which `headerEntry?_headerLine` reads back;
    * `exists_of_mem_headers` traces an entry to its line, so that nothing in it is taken
      for a line break when it is printed (`isOneLine_headerLine`);
    * `extractHeaders_headersText` reads the printed lines one by one.

    Main fact: `headers_printed`. -/

namespace StoryTemplate

open CodeLine (IsOneLine)

variable {input delimiter line : Text} {entry : Text × Text}

/-! ## Entries -/

/-- What a text is split into at its spaces, the empty parts left out. -/
def IsPart (s : Text) : Prop := s ≠ [] ∧ ' ' ∉ s

/-- The line of an entry as it is printed. -/
def headerLine (entry : Text × Text) : Text := entry.1 ++ ' ' :: entry.2

/-- The key is one part, and the value is parts with single spaces between them. -/
def IsHeader (entry : Text × Text) : Prop :=
  IsPart entry.1 ∧ ∃ parts, parts ≠ [] ∧ (∀ part ∈ parts, IsPart part) ∧
    entry.2 = joinWith [' '] parts

/-- The entry of a line is what the line is split into. -/
theorem exists_of_headerEntry? (h : headerEntry? line = some entry) :
    ∃ parts, parts ≠ [] ∧ entry.1 :: parts = (splitAll ' ' line).filter (· ≠ []) ∧
      entry.2 = joinWith [' '] parts := by
  unfold headerEntry? at h
  split at h
  · rename_i key first others hparts
    obtain rfl := Option.some.inj h
    exact ⟨first :: others, List.cons_ne_nil _ _, hparts.symm, rfl⟩
  · cases h

theorem isHeader_of_headerEntry? (h : headerEntry? line = some entry) : IsHeader entry := by
  obtain ⟨parts, hne, hparts, hvalue⟩ := exists_of_headerEntry? h
  have hall : ∀ part ∈ entry.1 :: parts, IsPart part := by
    intro part hpart
    rw [hparts] at hpart
    obtain ⟨hsplit, hfull⟩ := List.mem_filter.1 hpart
    exact ⟨of_decide_eq_true hfull, not_mem_of_mem_splitAll hsplit⟩
  obtain ⟨hkey, hrest⟩ := List.forall_mem_cons.1 hall
  exact ⟨hkey, parts, hne, hrest, hvalue⟩

/-- An entry has no characters but those of its line and the spaces between its parts. -/
theorem mem_headerLine (h : headerEntry? line = some entry) {c : Char}
    (hc : c ∈ headerLine entry) : c = ' ' ∨ c ∈ line := by
  obtain ⟨parts, hne, hparts, hvalue⟩ := exists_of_headerEntry? h
  have hline : headerLine entry = joinWith [' '] (entry.1 :: parts) := by
    rw [headerLine, hvalue, joinWith_cons hne]
  rw [hline, hparts] at hc
  refine forall_mem_joinWith (p := fun c => c = ' ' ∨ c ∈ line) (.inl rfl) ?_ c hc
  intro part hpart c hc
  exact .inr ((infix_of_mem_splitAll (List.mem_filter.1 hpart).1).subset hc)

theorem isOneLine_headerLine (h : headerEntry? line = some entry) (hline : IsOneLine line) :
    IsOneLine (headerLine entry) := by
  refine ⟨fun hmem => ?_, fun hmem => ?_⟩
  · exact (mem_headerLine h hmem).elim (by decide) hline.1
  · exact (mem_headerLine h hmem).elim (by decide) hline.2

/-- The line of an entry is read as the entry. -/
theorem headerEntry?_headerLine (h : IsHeader entry) :
    headerEntry? (headerLine entry) = some entry := by
  obtain ⟨key, value⟩ := entry
  obtain ⟨hkey, parts, hne, hparts, rfl⟩ := h
  have hall : ∀ part ∈ key :: parts, IsPart part := List.forall_mem_cons.2 ⟨hkey, hparts⟩
  have hsplit : splitAll ' ' (headerLine (key, joinWith [' '] parts)) = key :: parts := by
    rw [headerLine, ← joinWith_cons hne]
    exact splitAll_joinWith (List.cons_ne_nil _ _) fun part hpart => (hall part hpart).2
  have hfilter : (key :: parts).filter (· ≠ []) = key :: parts :=
    List.filter_eq_self.2 fun part hpart => decide_eq_true (hall part hpart).1
  unfold headerEntry?
  rw [hsplit, hfilter]
  obtain ⟨first, others, rfl⟩ := List.exists_cons_of_ne_nil hne
  rfl

/-- A value has no space to spare. -/
theorem IsHeader.value_spaces (h : IsHeader entry) :
    entry.2 ≠ [] ∧ entry.2.head? ≠ some ' ' ∧ entry.2.getLast? ≠ some ' ' ∧
      ¬ [' ', ' '] <:+: entry.2 := by
  obtain ⟨-, parts, hne, hparts, hvalue⟩ := h
  -- Wherever a space is to spare, an empty text is split off.
  have hfull : [] ∉ splitAll ' ' entry.2 := by
    rw [hvalue, splitAll_joinWith hne fun part hpart => (hparts part hpart).2]
    exact fun hmem => (hparts [] hmem).1 rfl
  generalize entry.2 = value at hfull
  refine ⟨?_, ?_, ?_, ?_⟩
  · rintro rfl
    exact hfull List.mem_cons_self
  · intro hhead
    obtain ⟨rest, rfl⟩ := List.head?_eq_some_iff.1 hhead
    exact hfull (splitAll_append (t := []) List.not_mem_nil ▸ List.mem_cons_self)
  · intro hlast
    obtain ⟨rest, rfl⟩ := List.getLast?_eq_some_iff.1 hlast
    rw [splitAll_append_cons] at hfull
    exact hfull (List.mem_append_right _ List.mem_cons_self)
  · rintro ⟨before, after, rfl⟩
    rw [List.append_assoc, List.cons_append, splitAll_append_cons] at hfull
    exact hfull (List.mem_append_right _ List.mem_cons_self)

/-! ## Header sections -/

theorem extractHeaders_of_cut {before rest : Text}
    (h : (LineBreak.detect input).findDelimiter delimiter input = some (before, rest)) :
    extractHeaders input delimiter =
      .ofList (((LineBreak.detect input).lines rest).filterMap headerEntry?) := by
  simp only [extractHeaders, h]

theorem extractHeaders_of_no_cut
    (h : (LineBreak.detect input).findDelimiter delimiter input = none) :
    extractHeaders input delimiter = ∅ := by
  simp only [extractHeaders, h]

/-- An entry comes from one line of the input. -/
theorem exists_of_mem_headers (hinput : '\r' ∉ input)
    (h : entry ∈ (extractHeaders input delimiter).entries) :
    ∃ line, headerEntry? line = some entry ∧ IsOneLine line := by
  cases hcut : (LineBreak.detect input).findDelimiter delimiter input with
  | none =>
      rw [extractHeaders_of_no_cut hcut] at h
      cases h
  | some cut =>
      obtain ⟨before, rest⟩ := cut
      rw [extractHeaders_of_cut hcut, LineBreak.detect_of_no_return hinput,
        LineBreak.lines_eq_splitAll rfl] at h
      have hmem := (Dict.mem_entries_insertAll h).resolve_left List.not_mem_nil
      obtain ⟨line, hline, hentry⟩ := List.mem_filterMap.1 hmem
      refine ⟨line, hentry, ?_, not_mem_of_mem_splitAll hline⟩
      intro hreturn
      apply hinput
      rw [breakOn_eq_some hcut]
      exact List.mem_append_right _ ((infix_of_mem_splitAll hline).subset hreturn)

/-- The headers as they are printed. -/
def headersText (headers : Dict Text) : Text :=
  headers.entries.flatMap fun entry => headerLine entry ++ ['\n']

/-- Behind a lone delimiter line there are no headers, whatever line breaks it holds. -/
theorem extractHeaders_lone (delimiter : Text) :
    extractHeaders ('\n' :: (delimiter ++ ['\n'])) delimiter = ∅ := by
  generalize htemplate : '\n' :: (delimiter ++ ['\n']) = template
  generalize hbreak : LineBreak.detect template = lineBreak
  cases hcut : lineBreak.findDelimiter delimiter template with
  | none =>
      rw [← hbreak] at hcut
      exact extractHeaders_of_no_cut hcut
  | some cut =>
      obtain ⟨before, rest⟩ := cut
      have hlen := congrArg List.length (breakOn_eq_some hcut)
      have hpos := lineBreak.length_text_pos
      rw [← htemplate] at hlen
      simp only [LineBreak.delimiterLine, List.length_append, List.length_cons, List.length_nil]
        at hlen
      -- The delimiter line takes up all of the template.
      obtain rfl : rest = [] := List.length_eq_zero_iff.1 (by omega)
      have hlines : lineBreak.lines [] = [[]] :=
        LineBreak.lines_none (breakOn_eq_none_iff.2 fun h => by
          rw [List.infix_nil.1 h] at hpos
          exact Nat.lt_irrefl 0 hpos)
      rw [← hbreak] at hcut hlines
      rw [extractHeaders_of_cut hcut, hlines]
      rfl

/-- Printed headers are read back behind a delimiter line. -/
theorem extractHeaders_headersText {headers : Dict Text} (hdelimiter : '\r' ∉ delimiter)
    (hheader : ∀ entry ∈ headers.entries, IsHeader entry)
    (hline : ∀ entry ∈ headers.entries, IsOneLine (headerLine entry)) :
    extractHeaders ('\n' :: (delimiter ++ '\n' :: headersText headers)) delimiter = headers := by
  have hlines : LineBreak.lf.lines (headersText headers) =
      headers.entries.map headerLine ++ [[]] := by
    have hflat : headersText headers =
        (headers.entries.map headerLine).flatMap (· ++ ['\n']) := by
      rw [headersText, List.flatMap_map]
    rw [LineBreak.lines_eq_splitAll rfl, hflat,
      splitAll_flatMap (List.forall_mem_map.2 fun entry hentry => (hline entry hentry).2)]
  have hread : (headers.entries.map headerLine ++ [[]]).filterMap headerEntry? =
      headers.entries := by
    have hentries : headers.entries.filterMap (fun entry => headerEntry? (headerLine entry)) =
        headers.entries.filterMap some :=
      List.filterMap_congr fun entry hentry => headerEntry?_headerLine (hheader entry hentry)
    rw [List.filterMap_append, List.filterMap_map, Function.comp_def, hentries,
      List.filterMap_some]
    exact List.append_nil _
  have hreturn : '\r' ∉ '\n' :: (delimiter ++ '\n' :: headersText headers) := by
    have hprinted : '\r' ∉ headersText headers := by
      intro hmem
      obtain ⟨entry, hentry, hmem⟩ := List.mem_flatMap.1 hmem
      rcases List.mem_append.1 hmem with hmem | hmem
      · exact (hline entry hentry).1 hmem
      · exact absurd hmem (by decide)
    simp [hdelimiter, hprinted]
  have hcut : LineBreak.lf.findDelimiter delimiter
      ('\n' :: (delimiter ++ '\n' :: headersText headers)) = some ([], headersText headers) := by
    have hshape : '\n' :: (delimiter ++ '\n' :: headersText headers) =
        LineBreak.lf.delimiterLine delimiter ++ headersText headers := by
      simp [LineBreak.delimiterLine, LineBreak.text]
    rw [hshape]
    exact breakOn_append_self _ _
  rw [← LineBreak.detect_of_no_return hreturn] at hcut
  rw [extractHeaders_of_cut hcut, LineBreak.detect_of_no_return hreturn, hlines, hread,
    Dict.ofList_entries]

/-- The command prints the text of the headers behind its own delimiter. -/
theorem outcome_headers (notations : CommandLine.Notations) {inputs : CommandLine.Inputs}
    {options : CommandLine.Options}
    (hread : CommandLine.readTemplate inputs options = .ok input)
    (hformat : options.format.getD .text = .text) :
    CommandLine.Outcome.ofRun (CommandLine.Command.headers.run notations inputs options) =
      ⟨0, headersText (extractHeaders input ({} : Config).headerDelimiter), none⟩ := by
  obtain ⟨printed, hprints, hprinted⟩ := CommandLine.prints_printResult notations options
    (CommandLine.prints_printHeaders (({} : Engine).headers input))
    (({} : Engine).headers input).report
  obtain rfl := hprinted hformat
  apply CommandLine.Outcome.ofRun_prints
  rw [CommandLine.Command.run, CommandLine.runHeaders, hread, CommandLine.Run.read_ok]
  exact hprints

/-- The headers of a text without carriage returns are a fixed point of printing and
    reading: what is printed for them, by the command too, holds the same headers behind
    the delimiter.  Keys are not empty and have no spaces, and values have no spaces but
    single ones between other characters. -/
theorem headers_printed (delimiter : Text) (hinput : '\r' ∉ input) :
    let headers := extractHeaders input delimiter
    (CommandLine.printHeaders headers).Prints (headersText headers) ∧
      (delimiter = ({} : Config).headerDelimiter → ∀ notations inputs options,
        CommandLine.readTemplate inputs options = .ok input →
        options.format.getD .text = .text →
        CommandLine.Outcome.ofRun (CommandLine.Command.headers.run notations inputs options) =
          ⟨0, headersText headers, none⟩) ∧
      extractHeaders ('\n' :: (delimiter ++ '\n' :: headersText headers)) delimiter = headers ∧
      ∀ key value, headers.get? key = some value →
        key ≠ [] ∧ ' ' ∉ key ∧ value ≠ [] ∧ value.head? ≠ some ' ' ∧
          value.getLast? ≠ some ' ' ∧ ¬ [' ', ' '] <:+: value := by
  intro headers
  have hheader : ∀ entry ∈ headers.entries, IsHeader entry := by
    intro entry hentry
    obtain ⟨line, hread, -⟩ := exists_of_mem_headers hinput hentry
    exact isHeader_of_headerEntry? hread
  refine ⟨CommandLine.prints_printHeaders headers, ?_, ?_, ?_⟩
  · rintro rfl notations inputs options hread hformat
    exact outcome_headers notations hread hformat
  · cases hcut : (LineBreak.detect input).findDelimiter delimiter input with
    | none =>
        have hempty : headers = ∅ := extractHeaders_of_no_cut hcut
        rw [hempty]
        exact extractHeaders_lone delimiter
    | some cut =>
        obtain ⟨before, rest⟩ := cut
        -- The delimiter stands in the input, so it has no carriage return either.
        have hdelimiter : '\r' ∉ delimiter := by
          intro hmem
          apply hinput
          rw [breakOn_eq_some hcut]
          simp [LineBreak.delimiterLine, hmem]
        refine extractHeaders_headersText hdelimiter hheader ?_
        intro entry hentry
        obtain ⟨line, hread, hline⟩ := exists_of_mem_headers hinput hentry
        exact isOneLine_headerLine hread hline
  · intro key value hget
    have hentry := hheader _ (Dict.get?_eq_some_iff.1 hget)
    exact ⟨hentry.1.1, hentry.1.2, hentry.value_spaces⟩

/-- Spaces to spare are gone, tabs stay, the last line of a key counts, and a line of one
    word is none. -/
theorem headers_printed_spaced :
    let input := "data\n---\n  title   a  b \nword\nß x\ty\ntitle  Größe z\n".toList
    let headers := extractHeaders input "---".toList
    '\r' ∉ input ∧
      headersText headers = "title Größe z\nß x\ty\n".toList ∧
      extractHeaders ("\n---\n".toList ++ headersText headers) "---".toList = headers := by
  intro input headers
  have hinput : '\r' ∉ input := by decide
  refine ⟨hinput, by decide +kernel, ?_⟩
  exact (headers_printed "---".toList hinput).2.2.1

end StoryTemplate
