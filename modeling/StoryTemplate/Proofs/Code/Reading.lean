import Mathlib.Data.List.Forall2
import StoryTemplate.Proofs.Code.Lines
import StoryTemplate.Proofs.Code.Written
import StoryTemplate.Render

/-! # Templates with a code section are read back

    A template of a data text without carriage returns, the delimiter line and lines of
    code uses line feeds, so it is cut at the first delimiter line, and the code into
    the lines that were written.  Blank lines are numbered but declare nothing.

    Main fact: `Document.read_written`. -/

namespace StoryTemplate

/-! ## The line break of a template -/

namespace LineBreak

/-- The lines between breaks of one character are the parts between that character. -/
theorem lines_eq_splitAll {lineBreak : LineBreak} {sep : Char} (hsep : lineBreak.text = [sep])
    (s : Text) : lineBreak.lines s = splitAll sep s := by
  fun_induction lines lineBreak s with
  | case1 s hnone =>
      rw [hsep, breakOn_singleton, splitFirst_eq_none_iff] at hnone
      exact (splitAll_of_not_mem hnone).symm
  | case2 s line rest hsome ih =>
      rw [hsep, breakOn_singleton] at hsome
      obtain ⟨rfl, hline⟩ := splitFirst_eq_some hsome
      rw [splitAll_append hline, ih]

/-- The two characters of a line break come together only if one text ends with the
    first of them. -/
theorem not_infix_append {s t : Text} (hs : ¬ crlf.text <:+: s) (hend : s.getLast? ≠ some '\r')
    (ht : ¬ crlf.text <:+: t) : ¬ crlf.text <:+: s ++ t := by
  induction s with
  | nil => exact ht
  | cons c r ih =>
      rw [List.infix_cons_iff, not_or] at hs
      rw [List.cons_append, List.infix_cons_iff, not_or]
      refine ⟨fun hprefix => ?_, ?_⟩
      · cases r with
        | nil => exact hend (congrArg some (List.cons_prefix_cons.1 hprefix).1.symm)
        | cons d r =>
            obtain ⟨hc, hprefix⟩ := List.cons_prefix_cons.1 hprefix
            have hd := (List.cons_prefix_cons.1 hprefix).1
            exact hs.1 ⟨r, by rw [← hc, ← hd]; rfl⟩
      · cases r with
        | nil => exact ht
        | cons d r => exact ih hs.2 (by rwa [List.getLast?_cons_cons] at hend)

/-- A text that holds a line feed, but none behind a carriage return, uses line
    feeds. -/
theorem detect_eq_lf {s : Text} (hcrlf : ¬ crlf.text <:+: s) (hlf : '\n' ∈ s) : detect s = lf := by
  rw [detect, show ['\r', '\n'] = crlf.text from rfl, breakOn_eq_none_iff.2 hcrlf]
  simp [hlf]

end LineBreak

/-! ## Lines of code -/

namespace CodeLine

/-- The lines with a line feed behind each of them. -/
def sectionText (lines : List CodeLine) : Text := lines.flatMap (·.text ++ ['\n'])

/-- All that the lines declare. -/
def declarations (lines : List CodeLine) : List Declaration := lines.filterMap declares?

variable {lines : List CodeLine}

/-- A code section is cut into the lines that were written, and an empty rest. -/
theorem lines_sectionText (h : ∀ line ∈ lines, line.WellFormed) :
    LineBreak.lf.lines (sectionText lines) = lines.map text ++ [[]] := by
  have hflat : sectionText lines = (lines.map text).flatMap (· ++ ['\n']) := by
    rw [sectionText, List.flatMap_map]
  rw [LineBreak.lines_eq_splitAll rfl, hflat,
    splitAll_flatMap (List.forall_mem_map.2 fun line hline => (text_ends (h line hline)).1)]

theorem not_infix_sectionText (h : ∀ line ∈ lines, line.WellFormed) :
    ¬ LineBreak.crlf.text <:+: sectionText lines := by
  induction lines with
  | nil => decide
  | cons line lines ih =>
      obtain ⟨hline, hlines⟩ := List.forall_mem_cons.1 h
      obtain ⟨hlf, hend⟩ := text_ends hline
      have htext : ¬ LineBreak.crlf.text <:+: line.text := fun hpair =>
        hlf (hpair.mem (by decide))
      have hrest : ¬ LineBreak.crlf.text <:+: ['\n'] ++ sectionText lines :=
        LineBreak.not_infix_append (by decide) (by decide) (ih hlines)
      rw [sectionText, List.flatMap_cons, List.append_assoc]
      exact LineBreak.not_infix_append htext hend hrest

/-- The written lines are read in order, whatever the first number is. -/
theorem readLines_numbered (h : ∀ line ∈ lines, line.WellFormed) (number : Nat) :
    Declaration.readLines (Declaration.numbered (lines.map text ++ [[]]) number) =
      .ok (declarations lines) := by
  have hlines : List.Forall₂ (fun t d => Declaration.read t = .ok d) (lines.map text)
      (lines.map declares?) := by
    rw [List.forall₂_map_left_iff, List.forall₂_map_right_iff, List.forall₂_same]
    exact fun line hline => read_text (h line hline).readable
  -- The empty line behind the last line feed declares nothing.
  have hend : List.Forall₂ (fun t d => Declaration.read t = .ok d) [[]] [none] :=
    .cons rfl .nil
  refine Declaration.readLines_eq_ok_iff.2 ⟨_, List.rel_append hlines hend, ?_⟩
  rw [List.reduceOption_append, declarations, List.reduceOption, List.filterMap_map]
  exact (List.append_nil _).symm

end CodeLine

/-! ## Templates -/

namespace Document

/-- A template of the data, the delimiter line and the lines of code. -/
def written (data : Text) (lines : List CodeLine) : Text :=
  data ++ ['\n', '$', '\n'] ++ CodeLine.sectionText lines

variable {data : Text} {lines : List CodeLine}

theorem detect_written (hdata : '\r' ∉ data) (hlines : ∀ line ∈ lines, line.WellFormed) :
    LineBreak.detect (written data lines) = .lf := by
  have hdelimiter : ¬ LineBreak.crlf.text <:+: ['\n', '$', '\n'] ++ CodeLine.sectionText lines :=
    LineBreak.not_infix_append (by decide) (by decide) (CodeLine.not_infix_sectionText hlines)
  have htemplate : ¬ LineBreak.crlf.text <:+: written data lines := by
    rw [written, List.append_assoc]
    exact LineBreak.not_infix_append (fun hpair => hdata (hpair.mem (by decide)))
      (fun hlast => hdata (List.mem_of_getLast? hlast)) hdelimiter
  exact LineBreak.detect_eq_lf htemplate (by simp [written])

/-- A written template is read back, if the delimiter line behind its data is the first
    one: the data, the injections and the meta objects, in the order of their lines. -/
theorem read_written (hdata : '\r' ∉ data) (hlines : ∀ line ∈ lines, line.WellFormed)
    (hfirst : ∀ before after, written data lines = before ++ ['\n', '$', '\n'] ++ after →
      data.length ≤ before.length) :
    Document.read (written data lines) {} =
      .ok ⟨data, (CodeLine.declarations lines).filterMap Declaration.injection?,
        (CodeLine.declarations lines).filterMap Declaration.metaObject?⟩ := by
  have hcut : (LineBreak.detect (written data lines)).findDelimiter ['$'] (written data lines) =
      some (data, CodeLine.sectionText lines) := by
    rw [detect_written hdata hlines]
    exact breakOn_eq_some_iff.2 ⟨rfl, hfirst⟩
  have hcode : Declaration.readLines (Sections.split (written data lines) ['$']).codeLines =
      .ok (CodeLine.declarations lines) := by
    rw [(Sections.split_of_findDelimiter hcut).1, detect_written hdata hlines]
    show Declaration.readLines
      (Declaration.numbered (LineBreak.lf.lines (CodeLine.sectionText lines)) 1) = _
    rw [CodeLine.lines_sectionText hlines]
    exact CodeLine.readLines_numbered hlines 1
  show ((Declaration.readLines
    (Sections.split (written data lines) ['$']).codeLines).map _).map _ = _
  rw [hcode, (Sections.split_of_findDelimiter hcut).1]
  rfl

/-- Fields keep the spaces, separators and letters that the line around them uses too, and
    a dollar sign in the data is no delimiter. -/
theorem read_written_lookalikes :
    let data := "é\n$ \n$x\n".toList
    let lines : List CodeLine :=
      [.injection "m".toList " > a|b:c".toList, .blank "\t ".toList,
        .map "l".toList [("z".toList, " 1 ".toList), (" <m".toList, "2".toList)],
        .map "none".toList [], .blank [],
        .list "m".toList [[], " ".toList, "k:v".toList, [], "ß".toList], .list "m".toList []]
    '\r' ∉ data ∧ (∀ line ∈ lines, line.WellFormed) ∧
      Document.read (written data lines) {} =
        .ok ⟨data, [("m".toList, " > a|b:c".toList)],
          [.map ⟨"l".toList, .ofList [(" <m".toList, "2".toList), ("z".toList, " 1 ".toList)]⟩,
            .map ⟨"none".toList, ∅⟩,
            .list ⟨"m".toList, [[], " ".toList, "k:v".toList, [], "ß".toList]⟩,
            .list ⟨"m".toList, []⟩]⟩ := by
  intro data lines
  have hdata : '\r' ∉ data := by decide
  have hlines : ∀ line ∈ lines, line.WellFormed := by decide +kernel
  have hcut : breakOn ['\n', '$', '\n'] (written data lines) =
      some (data, CodeLine.sectionText lines) := by decide +kernel
  refine ⟨hdata, hlines, (read_written hdata hlines (breakOn_eq_some_iff.1 hcut).2).trans ?_⟩
  decide +kernel

end Document
end StoryTemplate
