import StoryTemplate.Header
import StoryTemplate.Proofs.Code.Written

/-! # Conversion — a template with other line breaks

    A template is written with line feeds, and each of them may be written as another
    line break.  The template shows which one it uses, and is divided and read with
    that one, so the data and the code are converted with it and the rest is as it was.
    The route:

    * no two characters are written alike, not even at their beginnings, so a converted
      needle begins a converted text exactly if the needle begins the text
      (`convert_prefix_iff`);
    * a needle that begins with a line feed is not found inside of a converted one
      either, so cuts correspond one to one (`breakOn_convert`);
    * so do lines (`lines_convert`), and the line break is the one that was chosen, if
      the template has any (`detect_convert`).

    Main fact: `sections_convert`. -/

namespace StoryTemplate

namespace LineBreak

/-- How a character is written with the line break. -/
def charText (lineBreak : LineBreak) (c : Char) : Text :=
  if c = '\n' then lineBreak.text else [c]

/-- The text with every line feed written as the line break. -/
def convert (lineBreak : LineBreak) (s : Text) : Text := s.flatMap lineBreak.charText

variable {lineBreak : LineBreak} {c d : Char} {s t needle : Text}

theorem charText_of_ne (h : c ≠ '\n') : lineBreak.charText c = [c] := if_neg h

theorem charText_ne_nil (lineBreak : LineBreak) (c : Char) : lineBreak.charText c ≠ [] := by
  by_cases hc : c = '\n'
  · rw [charText, if_pos hc]
    exact List.ne_nil_of_length_pos lineBreak.length_text_pos
  · rw [charText_of_ne hc]
    exact List.cons_ne_nil c []

theorem convert_cons (lineBreak : LineBreak) (c : Char) (s : Text) :
    lineBreak.convert (c :: s) = lineBreak.charText c ++ lineBreak.convert s :=
  List.flatMap_cons

theorem convert_cons_ne_nil (lineBreak : LineBreak) (c : Char) (s : Text) :
    lineBreak.convert (c :: s) ≠ [] := by
  rw [convert_cons]
  exact List.append_ne_nil_of_left_ne_nil (charText_ne_nil lineBreak c) _

theorem convert_append (lineBreak : LineBreak) (s t : Text) :
    lineBreak.convert (s ++ t) = lineBreak.convert s ++ lineBreak.convert t :=
  List.flatMap_append

/-- A text of one line stays as it is. -/
theorem convert_of_not_mem (h : '\n' ∉ s) : lineBreak.convert s = s := by
  induction s with
  | nil => rfl
  | cons c r ih =>
      obtain ⟨hc, hr⟩ := not_or.1 fun hmem => h (List.mem_cons.2 hmem)
      rw [convert_cons, charText_of_ne (Ne.symm hc), ih hr]
      rfl

theorem convert_lf (s : Text) : lf.convert s = s := by
  have hchar : lf.charText = fun c => [c] := by
    funext c
    by_cases hc : c = '\n'
    · rw [hc]
      rfl
    · exact charText_of_ne hc
  rw [convert, hchar, List.flatMap_singleton']

theorem convert_delimiterLine (h : '\n' ∉ s) :
    lineBreak.convert (lf.delimiterLine s) = lineBreak.delimiterLine s := by
  have hbreak : lineBreak.convert lf.text = lineBreak.text := List.append_nil _
  rw [delimiterLine, convert_append, convert_append, convert_of_not_mem h, hbreak]
  rfl

/-! ## Prefixes -/

/-- A line break begins with one of two characters. -/
theorem head?_text_ne (hcr : c ≠ '\r') (hlf : c ≠ '\n') : lineBreak.text.head? ≠ some c := by
  intro h
  cases lineBreak with
  | lf => exact hlf (Option.some.inj h).symm
  | crlf => exact hcr (Option.some.inj h).symm
  | cr => exact hcr (Option.some.inj h).symm

/-- Characters that are written with the same beginning are the same. -/
theorem eq_of_head?_charText (hc : c ≠ '\r') (hd : d ≠ '\r')
    (h : (lineBreak.charText c).head? = (lineBreak.charText d).head?) : c = d := by
  by_cases hclf : c = '\n'
  · by_cases hdlf : d = '\n'
    · exact hclf.trans hdlf.symm
    · rw [charText_of_ne hdlf, charText, if_pos hclf] at h
      exact absurd h (head?_text_ne hd hdlf)
  · by_cases hdlf : d = '\n'
    · rw [charText_of_ne hclf, charText, if_pos hdlf] at h
      exact absurd h.symm (head?_text_ne hc hclf)
    · rw [charText_of_ne hclf, charText_of_ne hdlf] at h
      exact Option.some.inj h

/-- A converted text begins a converted text exactly if it did before. -/
theorem convert_prefix_iff (hneedle : '\r' ∉ needle) (hs : '\r' ∉ s) :
    lineBreak.convert needle <+: lineBreak.convert s ↔ needle <+: s := by
  induction needle generalizing s with
  | nil => exact iff_of_true List.nil_prefix List.nil_prefix
  | cons c needle ih =>
      obtain ⟨hc, hneedle⟩ := not_or.1 fun hmem => hneedle (List.mem_cons.2 hmem)
      cases s with
      | nil =>
          exact iff_of_false
            (fun hprefix => convert_cons_ne_nil lineBreak c needle (List.prefix_nil.1 hprefix))
            fun hprefix => List.cons_ne_nil c needle (List.prefix_nil.1 hprefix)
      | cons d s =>
          obtain ⟨hd, hs⟩ := not_or.1 fun hmem => hs (List.mem_cons.2 hmem)
          rw [convert_cons, convert_cons, List.cons_prefix_cons]
          by_cases hcd : c = d
          · rw [hcd, List.prefix_append_right_inj, ih hneedle hs]
            exact (and_iff_right rfl).symm
          -- Neither is a prefix: the two texts already differ in their first characters.
          · refine iff_of_false (fun hprefix => hcd ?_) fun h => hcd h.1
            obtain ⟨rest, hrest⟩ := hprefix
            have hhead := congrArg List.head? hrest
            rw [List.append_assoc, List.head?_append_of_ne_nil _ (charText_ne_nil lineBreak c),
              List.head?_append_of_ne_nil _ (charText_ne_nil lineBreak d)] at hhead
            exact eq_of_head?_charText (Ne.symm hc) (Ne.symm hd) hhead

/-! ## Cuts -/

/-- The converted text of a character is passed over as a whole by the search for a
    needle that begins with a line break, unless the needle begins with it. -/
theorem breakOn_charText (h : ¬ lineBreak.text ++ needle <+: lineBreak.charText c ++ s) :
    breakOn (lineBreak.text ++ needle) (lineBreak.charText c ++ s) =
      (breakOn (lineBreak.text ++ needle) s).map fun cut =>
        (lineBreak.charText c ++ cut.1, cut.2) := by
  by_cases hc : c = '\n'
  · subst hc
    cases lineBreak with
    | lf => exact breakOn_cons h
    | cr => exact breakOn_cons h
    | crlf =>
        -- The second character of the line break begins no line break.
        have hsecond : ¬ crlf.text ++ needle <+: '\n' :: s := fun hprefix =>
          absurd (List.cons_prefix_cons.1 hprefix).1 (by decide)
        refine (breakOn_cons h).trans ?_
        show Option.map _ (breakOn _ ('\n' :: s)) = _
        rw [breakOn_cons hsecond, Option.map_map]
        rfl
  · rw [charText_of_ne hc] at h ⊢
    exact breakOn_cons h

/-- A text is cut at a needle that begins with a line feed where the converted text is cut
    at the converted needle. -/
theorem breakOn_convert (hneedle : '\r' ∉ needle) (hs : '\r' ∉ s) :
    breakOn (lineBreak.convert ('\n' :: needle)) (lineBreak.convert s) =
      (breakOn ('\n' :: needle) s).map fun cut =>
        (lineBreak.convert cut.1, lineBreak.convert cut.2) := by
  have hneedle' : '\r' ∉ '\n' :: needle := by
    rw [List.mem_cons]
    exact not_or.2 ⟨by decide, hneedle⟩
  induction s with
  | nil =>
      exact breakOn_eq_none_iff.2 fun hempty =>
        convert_cons_ne_nil lineBreak '\n' needle (List.infix_nil.1 hempty)
  | cons c r ih =>
      -- The needle begins here before and after, or it does in neither text; then all that
      -- the character is written with is passed over.
      by_cases hprefix : '\n' :: needle <+: c :: r
      · obtain ⟨after, hafter⟩ := hprefix
        rw [← hafter, convert_append, breakOn_append_self, breakOn_append_self]
        rfl
      · have hr : '\r' ∉ r := fun hmem => hs (List.mem_cons_of_mem c hmem)
        have hno : ¬ lineBreak.convert ('\n' :: needle) <+: lineBreak.convert (c :: r) :=
          mt (convert_prefix_iff hneedle' hs).1 hprefix
        rw [breakOn_cons hprefix, Option.map_map]
        calc breakOn (lineBreak.convert ('\n' :: needle)) (lineBreak.convert (c :: r))
            = (breakOn (lineBreak.convert ('\n' :: needle)) (lineBreak.convert r)).map fun cut =>
                (lineBreak.charText c ++ cut.1, cut.2) := breakOn_charText hno
          _ = (breakOn ('\n' :: needle) r).map _ := by
                rw [ih hr, Option.map_map]
                rfl

/-! ## Lines -/

theorem lines_none (h : breakOn lineBreak.text s = none) : lineBreak.lines s = [s] := by
  rw [lines]
  split
  · rfl
  · rename_i hsome
    rw [h] at hsome
    cases hsome

theorem lines_some {line rest : Text} (h : breakOn lineBreak.text s = some (line, rest)) :
    lineBreak.lines s = line :: lineBreak.lines rest := by
  rw [lines]
  split
  · rename_i hnone
    rw [h] at hnone
    cases hnone
  · rename_i hsome
    rw [h, Option.some.injEq, Prod.mk.injEq] at hsome
    obtain ⟨rfl, rfl⟩ := hsome
    rfl

/-- The first line of a converted text is the first line of the text. -/
theorem breakOn_text_convert (hs : '\r' ∉ s) :
    breakOn lineBreak.text (lineBreak.convert s) =
      (splitFirst '\n' s).map fun cut => (cut.1, lineBreak.convert cut.2) := by
  have hbreak : lineBreak.convert ['\n'] = lineBreak.text := List.append_nil _
  rw [← hbreak, breakOn_convert List.not_mem_nil hs, breakOn_singleton]
  cases hcut : splitFirst '\n' s with
  | none => rfl
  | some cut => rw [Option.map_some, convert_of_not_mem (splitFirst_eq_some hcut).2, Option.map_some]

/-- The lines of a converted text are the lines of the text. -/
theorem lines_convert (hs : '\r' ∉ s) : lineBreak.lines (lineBreak.convert s) = lf.lines s := by
  fun_induction lines lf s with
  | case1 s hnone =>
      rw [show lf.text = ['\n'] from rfl, breakOn_singleton] at hnone
      have hconverted : breakOn lineBreak.text (lineBreak.convert s) = none := by
        rw [breakOn_text_convert hs, hnone]
        rfl
      rw [lines_none hconverted, convert_of_not_mem (splitFirst_eq_none_iff.1 hnone)]
  | case2 s line rest hsome ih =>
      rw [show lf.text = ['\n'] from rfl, breakOn_singleton] at hsome
      have hconverted : breakOn lineBreak.text (lineBreak.convert s) =
          some (line, lineBreak.convert rest) := by
        rw [breakOn_text_convert hs, hsome]
        rfl
      obtain ⟨rfl, -⟩ := splitFirst_eq_some hsome
      have hrest : '\r' ∉ rest := fun hmem =>
        hs (List.mem_append_right line (List.mem_cons_of_mem _ hmem))
      rw [lines_some hconverted, ih hrest]

/-! ## Which line break is used -/

theorem not_mem_convert_cr (s : Text) : '\n' ∉ cr.convert s := by
  intro hmem
  obtain ⟨c, -, hmem⟩ := List.mem_flatMap.1 hmem
  by_cases hc : c = '\n'
  · rw [charText, if_pos hc] at hmem
    exact absurd hmem (by decide)
  · rw [charText_of_ne hc] at hmem
    exact hc (List.eq_of_mem_singleton hmem).symm

/-- A text without carriage returns uses line feeds. -/
theorem detect_of_no_return (h : '\r' ∉ s) : detect s = lf := by
  have hnone : breakOn ['\r', '\n'] s = none :=
    breakOn_eq_none_iff.2 fun hpair => h (hpair.mem (by decide))
  rw [detect, hnone]
  simp [h]

/-- A converted text uses the line break that it was converted to, if it has any. -/
theorem detect_convert (hs : '\r' ∉ s) (hlf : '\n' ∈ s) :
    detect (lineBreak.convert s) = lineBreak := by
  obtain ⟨before, after, rfl⟩ := List.append_of_mem hlf
  have hsplit : lineBreak.convert (before ++ '\n' :: after) =
      lineBreak.convert before ++ lineBreak.text ++ lineBreak.convert after := by
    rw [convert_append, convert_cons, List.append_assoc]
    rfl
  cases lineBreak with
  | lf =>
      rw [convert_lf]
      exact detect_of_no_return hs
  | crlf =>
      have hcut : (breakOn ['\r', '\n'] (crlf.convert (before ++ '\n' :: after))).isSome := by
        rw [Option.isSome_iff_ne_none, Ne, breakOn_eq_none_iff, not_not]
        exact ⟨_, _, hsplit.symm⟩
      exact if_pos hcut
  | cr =>
      have hnone : breakOn ['\r', '\n'] (cr.convert (before ++ '\n' :: after)) = none :=
        breakOn_eq_none_iff.2 fun hpair => not_mem_convert_cr _ (hpair.mem (by decide))
      have hcr : '\r' ∈ cr.convert (before ++ '\n' :: after) := by
        rw [hsplit]
        exact List.mem_append_left _ (List.mem_append_right _ List.mem_cons_self)
      rw [detect, hnone]
      simp [hcr, not_mem_convert_cr]

/-- The delimiter line of a converted template is where it was before. -/
theorem findDelimiter_convert (ht : '\r' ∉ t) (hd : CodeLine.IsOneLine needle) :
    (detect (lineBreak.convert t)).findDelimiter needle (lineBreak.convert t) =
      (lf.findDelimiter needle t).map fun cut =>
        (lineBreak.convert cut.1, lineBreak.convert cut.2) := by
  -- A text of one line is not converted at all, and has no delimiter line.
  by_cases hlf : '\n' ∈ t
  · have htail : '\r' ∉ needle ++ ['\n'] := by
      rw [List.mem_append]
      exact not_or.2 ⟨hd.1, by decide⟩
    rw [detect_convert ht hlf, findDelimiter, ← convert_delimiterLine hd.2]
    exact breakOn_convert htail ht
  · have hnone : lf.findDelimiter needle t = none :=
      breakOn_eq_none_iff.2 fun hpair => hlf (hpair.mem List.mem_cons_self)
    rw [convert_of_not_mem hlf, detect_of_no_return ht, hnone]
    rfl

/-- A template with a delimiter line uses the line break that it was converted to, and
    its lines after the delimiter are the lines they were. -/
theorem lines_of_findDelimiter {before after : Text} (ht : '\r' ∉ t)
    (h : lf.findDelimiter needle t = some (before, after)) :
    (detect (lineBreak.convert t)).lines (lineBreak.convert after) = lf.lines after := by
  have hsplit := breakOn_eq_some h
  have hlf : '\n' ∈ t := by
    rw [hsplit]
    exact List.mem_append_left _ (List.mem_append_right _ List.mem_cons_self)
  have hafter : '\r' ∉ after := fun hmem => ht (hsplit ▸ List.mem_append_right _ hmem)
  rw [detect_convert ht hlf, lines_convert hafter]

end LineBreak

/-! ## Sections and headers -/

section Templates

variable {lineBreak : LineBreak} {template delimiter : Text}

/-- A converted template is divided where the template is. -/
theorem Sections.split_convert (ht : '\r' ∉ template) (hd : CodeLine.IsOneLine delimiter) :
    split (lineBreak.convert template) delimiter =
      ⟨lineBreak.convert (split template delimiter).data,
        (split template delimiter).code.map lineBreak.convert,
        .detect (lineBreak.convert template)⟩ := by
  simp only [split, LineBreak.findDelimiter_convert ht hd, LineBreak.detect_of_no_return ht]
  cases LineBreak.lf.findDelimiter delimiter template with
  | none => rfl
  | some cut => rfl

/-- Lines of code keep their numbers. -/
theorem Sections.codeLines_convert (ht : '\r' ∉ template) (hd : CodeLine.IsOneLine delimiter) :
    (split (lineBreak.convert template) delimiter).codeLines =
      (split template delimiter).codeLines := by
  rw [split_convert ht hd]
  simp only [split, LineBreak.detect_of_no_return ht]
  cases hcut : LineBreak.lf.findDelimiter delimiter template with
  | none => rfl
  | some cut =>
      simp only [codeLines, Option.map_some, LineBreak.lines_of_findDelimiter ht hcut]

theorem extractHeaders_convert (ht : '\r' ∉ template) (hd : CodeLine.IsOneLine delimiter) :
    extractHeaders (lineBreak.convert template) delimiter = extractHeaders template delimiter := by
  simp only [extractHeaders, LineBreak.findDelimiter_convert ht hd,
    LineBreak.detect_of_no_return ht]
  cases hcut : LineBreak.lf.findDelimiter delimiter template with
  | none => rfl
  | some cut =>
      simp only [Option.map_some, LineBreak.lines_of_findDelimiter ht hcut]

end Templates

/-- A template may be written with any line break: its sections are converted with it, and
    its lines of code, its declarations or their fault, and its headers stay the same. -/
theorem sections_convert (lineBreak : LineBreak) (template delimiter : Text)
    (ht : '\r' ∉ template) (hd : CodeLine.IsOneLine delimiter) :
    let sections := Sections.split template delimiter
    let converted := Sections.split (lineBreak.convert template) delimiter
    converted.data = lineBreak.convert sections.data ∧
      converted.code = sections.code.map lineBreak.convert ∧
      converted.codeLines = sections.codeLines ∧
      CodeSection.read converted = CodeSection.read sections ∧
      extractHeaders (lineBreak.convert template) delimiter = extractHeaders template delimiter := by
  intro sections converted
  have hsplit : converted = ⟨lineBreak.convert sections.data,
      sections.code.map lineBreak.convert, .detect (lineBreak.convert template)⟩ :=
    Sections.split_convert ht hd
  have hlines : converted.codeLines = sections.codeLines := Sections.codeLines_convert ht hd
  refine ⟨congrArg Sections.data hsplit, congrArg Sections.code hsplit, hlines, ?_,
    extractHeaders_convert ht hd⟩
  rw [CodeSection.read, CodeSection.read, hlines]

/-- Of two delimiter lines with one line break between them the first one counts, and the
    second one is the first line of the code. -/
theorem sections_convert_overlap :
    let template := "é\n$\n$\n\n> n v\n? k  w".toList
    let converted := Sections.split (LineBreak.crlf.convert template) ['$']
    '\r' ∉ template ∧ CodeLine.IsOneLine ['$'] ∧
      converted.data = ['é'] ∧
      converted.code = some "$\r\n\r\n> n v\r\n? k  w".toList ∧
      converted.codeLines = [(1, ['$']), (3, "> n v".toList), (4, "? k  w".toList)] ∧
      CodeSection.read converted = .error (.codeLine 1 (.unknownToken '$')) ∧
      extractHeaders (LineBreak.crlf.convert template) ['$'] =
        .ofList [(['>'], "n v".toList), (['?'], "k w".toList)] := by
  intro template converted
  have ht : '\r' ∉ template := by decide
  have hd : CodeLine.IsOneLine ['$'] := by decide
  obtain ⟨hdata, hcode, hlines, hread, hheaders⟩ := sections_convert .crlf template ['$'] ht hd
  refine ⟨ht, hd, hdata.trans ?_, hcode.trans ?_, hlines.trans ?_, hread.trans ?_,
    hheaders.trans ?_⟩ <;> decide +kernel

end StoryTemplate
