import Mathlib.Data.List.ReduceOption
import StoryTemplate.Declaration
import StoryTemplate.Pass
import StoryTemplate.Proofs.Text.Cuts

/-! # Lines — what a code section declares, line by line

    A template is cut at the first line that holds just the delimiter, and the code
    behind it at every line break.  Neither cut loses anything but what it is made
    at.  The lines that are not blank are then read in order, with the numbers that
    they have among all lines: the reading stops at the first line that is no
    declaration.

    A blank line declares nothing wherever it is read, so the reading comes out as if
    it were done on all lines; that is the step in `readLines_numbered_cons`.

    Main facts: `Sections.split_cases`, `LineBreak.not_infix_of_mem_lines`,
    `Declaration.readLines_eq_error_iff` and `Declaration.readLines_eq_ok_iff`, from
    them `CodeSection.read_eq_error_iff` and `CodeSection.read_eq_ok_iff`, and
    `sections_read_iff`. -/

namespace StoryTemplate

/-! ## Cuts -/

/-- No line break is left within a line. -/
theorem LineBreak.not_infix_of_mem_lines {lineBreak : LineBreak} {s line : Text}
    (h : line ∈ lineBreak.lines s) : ¬ lineBreak.text <:+: line := by
  fun_induction lines lineBreak s with
  | case1 s hnone =>
      obtain rfl := List.mem_singleton.1 h
      exact breakOn_eq_none_iff.1 hnone
  | case2 s first rest hsome ih =>
      rcases List.mem_cons.1 h with rfl | h
      · exact not_infix_of_breakOn (List.ne_nil_of_length_pos lineBreak.length_text_pos) hsome
      · exact ih h

namespace Sections

variable {template delimiter code : Text}

/-- A template without a delimiter line is all data; else the first delimiter line parts
    the data from the code. -/
theorem split_cases (template delimiter : Text) :
    let lineBreak := LineBreak.detect template
    let needle := lineBreak.delimiterLine delimiter
    (split template delimiter = ⟨template, none, lineBreak⟩ ∧ ¬ needle <:+: template) ∨
      ∃ data code, split template delimiter = ⟨data, some code, lineBreak⟩ ∧
        template = data ++ needle ++ code ∧
        ∀ before after, template = before ++ needle ++ after → data.length ≤ before.length := by
  intro lineBreak needle
  cases hcut : lineBreak.findDelimiter delimiter template with
  | none =>
      refine .inl ⟨?_, breakOn_eq_none_iff.1 hcut⟩
      simp only [split, lineBreak, hcut] at hcut ⊢
  | some cut =>
      obtain ⟨data, code⟩ := cut
      obtain ⟨htemplate, hfirst⟩ := breakOn_eq_some_iff.1 hcut
      exact .inr ⟨data, code, (split_of_findDelimiter hcut).1, htemplate, hfirst⟩

theorem lineBreak_split (template delimiter : Text) :
    (split template delimiter).lineBreak = LineBreak.detect template := by
  rcases split_cases template delimiter with ⟨hsplit, -⟩ | ⟨data, code, hsplit, -⟩
  · rw [hsplit]
  · rw [hsplit]

theorem isSome_code_iff : (split template delimiter).code.isSome ↔
    (LineBreak.detect template).delimiterLine delimiter <:+: template := by
  rcases split_cases template delimiter with
    ⟨hsplit, hnone⟩ | ⟨data, code, hsplit, htemplate, -⟩
  · rw [hsplit]
    exact iff_of_false Bool.false_ne_true hnone
  · rw [hsplit]
    exact iff_of_true rfl ⟨data, code, htemplate.symm⟩

theorem data_of_no_code (h : (split template delimiter).code = none) :
    (split template delimiter).data = template := by
  rcases split_cases template delimiter with ⟨hsplit, -⟩ | ⟨data, code, hsplit, -⟩
  · rw [hsplit]
  · rw [hsplit] at h
    cases h

/-- The template is put together from its sections, and its data ends where the delimiter
    line first occurs. -/
theorem template_of_code (h : (split template delimiter).code = some code) :
    let needle := (LineBreak.detect template).delimiterLine delimiter
    template = (split template delimiter).data ++ needle ++ code ∧
      ∀ before after, template = before ++ needle ++ after →
        (split template delimiter).data.length ≤ before.length := by
  intro needle
  rcases split_cases template delimiter with ⟨hsplit, -⟩ | ⟨data, code', hsplit, hcut⟩
  · rw [hsplit] at h
    cases h
  · rw [hsplit] at h ⊢
    obtain rfl := Option.some.inj h
    exact hcut

/-- All lines of code; there are none without a code section. -/
def allLines (sections : Sections) : List Text :=
  sections.code.elim [] sections.lineBreak.lines

variable {sections : Sections}

theorem allLines_of_no_code (h : sections.code = none) : sections.allLines = [] := by
  rw [allLines, h]
  rfl

theorem allLines_ne_nil (h : sections.code = some code) : sections.allLines ≠ [] := by
  rw [allLines, h]
  exact sections.lineBreak.lines_ne_nil code

/-- The lines are what is left of the code when the line breaks are taken out. -/
theorem joinWith_allLines (h : sections.code = some code) :
    joinWith sections.lineBreak.text sections.allLines = code := by
  rw [allLines, h]
  exact sections.lineBreak.joinWith_lines code

theorem not_infix_of_mem_allLines {line : Text} (h : line ∈ sections.allLines) :
    ¬ sections.lineBreak.text <:+: line := by
  cases hcode : sections.code with
  | none =>
      rw [allLines_of_no_code hcode] at h
      cases h
  | some code =>
      rw [allLines, hcode] at h
      exact LineBreak.not_infix_of_mem_lines h

end Sections

/-! ## Numbered lines -/

namespace Declaration

/-- The lines that are not blank, with their numbers when the first of all lines has the
    number `first`. -/
def numbered (lines : List Text) (first : Nat) : List (Nat × Text) :=
  (lines.zipIdx first).filterMap fun (line, number) =>
    if isBlankText line then none else some (number, line)

theorem codeLines_eq (sections : Sections) : sections.codeLines = numbered sections.allLines 1 := by
  obtain ⟨data, code, lineBreak⟩ := sections
  cases code with
  | none => rfl
  | some code => rfl

variable {line : Text} {lines : List Text} {first : Nat}

/-- A line that is no declaration ends the reading, and any other line adds what it
    declares, if anything. -/
theorem readLines_numbered_cons (line : Text) (lines : List Text) (first : Nat) :
    readLines (numbered (line :: lines) first) =
      match read line with
      | .error cause => .error (.codeLine first cause)
      | .ok declared => (readLines (numbered lines (first + 1))).map (declared.toList ++ ·) := by
  by_cases hblank : isBlankText line = true
  · have hskip : numbered (line :: lines) first = numbered lines (first + 1) :=
      List.filterMap_cons_none (if_pos hblank)
    have hread : read line = .ok none := if_pos hblank
    rw [hskip, hread]
    cases readLines (numbered lines (first + 1)) with
    | error fault => rfl
    | ok declarations => rfl
  · have hkeep : numbered (line :: lines) first = (first, line) :: numbered lines (first + 1) :=
      List.filterMap_cons_some (if_neg hblank)
    rw [hkeep, readLines]
    cases read line with
    | error cause => rfl
    | ok declared =>
        cases declared with
        | some declaration => rfl
        | none =>
            cases readLines (numbered lines (first + 1)) with
            | error fault => rfl
            | ok declarations => rfl

/-- The reading fails exactly if some line is no declaration, and the fault is that of the
    first such line, with its number among all lines. -/
theorem readLines_eq_error_iff {fault : Fault} :
    readLines (numbered lines first) = .error fault ↔
      ∃ before line after cause, lines = before ++ line :: after ∧
        fault = .codeLine (first + before.length) cause ∧ read line = .error cause ∧
        ∀ earlier ∈ before, ∃ declared, read earlier = .ok declared := by
  induction lines generalizing first with
  | nil =>
      constructor
      · intro h
        cases h
      · rintro ⟨before, line, after, cause, hlines, -⟩
        exact absurd hlines.symm (List.append_ne_nil_of_right_ne_nil _ (List.cons_ne_nil _ _))
  | cons line lines ih =>
      rw [readLines_numbered_cons]
      cases hread : read line with
      | error cause =>
          constructor
          · intro h
            exact ⟨[], line, lines, cause, rfl, (Except.error.inj h).symm, hread,
              List.forall_mem_nil _⟩
          · rintro ⟨before, bad, after, cause', hlines, rfl, hbad, hbefore⟩
            -- The line itself is the first bad one: one before it would have been read.
            cases before with
            | nil =>
                obtain ⟨rfl, -⟩ := List.cons.inj hlines
                rw [hread] at hbad
                rw [Except.error.inj hbad]
                rfl
            | cons earlier before =>
                obtain ⟨rfl, -⟩ := List.cons.inj hlines
                obtain ⟨declared, hdeclared⟩ := hbefore _ List.mem_cons_self
                rw [hread] at hdeclared
                cases hdeclared
      | ok declared =>
          rw [map_eq_error_iff, ih]
          constructor
          · rintro ⟨before, bad, after, cause, rfl, rfl, hbad, hbefore⟩
            refine ⟨line :: before, bad, after, cause, rfl, ?_, hbad,
              List.forall_mem_cons.2 ⟨⟨declared, hread⟩, hbefore⟩⟩
            rw [List.length_cons, Nat.add_right_comm, Nat.add_assoc]
          · rintro ⟨before, bad, after, cause, hlines, rfl, hbad, hbefore⟩
            cases before with
            | nil =>
                obtain ⟨rfl, -⟩ := List.cons.inj hlines
                rw [hread] at hbad
                cases hbad
            | cons earlier before =>
                obtain ⟨-, rfl⟩ := List.cons.inj hlines
                refine ⟨before, bad, after, cause, rfl, ?_, hbad,
                  (List.forall_mem_cons.1 hbefore).2⟩
                rw [List.length_cons, Nat.add_right_comm, Nat.add_assoc]

/-- The reading succeeds exactly if every line is blank or a declaration, and what it
    returns is what the lines declare, in their order. -/
theorem readLines_eq_ok_iff {declarations : List Declaration} :
    readLines (numbered lines first) = .ok declarations ↔
      ∃ declared, List.Forall₂ (fun line d => read line = .ok d) lines declared ∧
        declarations = declared.reduceOption := by
  induction lines generalizing first declarations with
  | nil =>
      constructor
      · intro h
        exact ⟨[], .nil, (Except.ok.inj h).symm⟩
      · rintro ⟨declared, hread, rfl⟩
        cases hread
        rfl
  | cons line lines ih =>
      rw [readLines_numbered_cons]
      cases hread : read line with
      | error cause =>
          refine iff_of_false (fun h => nomatch h) ?_
          rintro ⟨declared, hlines, -⟩
          cases hlines with
          | cons hline hlines =>
              rw [hread] at hline
              cases hline
      | ok d =>
          have hcons : ∀ declared : List (Option Declaration),
              (d :: declared).reduceOption = d.toList ++ declared.reduceOption := by
            intro declared
            cases d with
            | none => exact List.reduceOption_cons_of_none declared
            | some declaration => exact List.reduceOption_cons_of_some declaration declared
          rw [map_eq_ok_iff]
          constructor
          · rintro ⟨rest, hrest, rfl⟩
            obtain ⟨declared, hlines, rfl⟩ := ih.1 hrest
            exact ⟨d :: declared, .cons hread hlines, (hcons declared).symm⟩
          · rintro ⟨declared, hlines, rfl⟩
            cases hlines with
            | cons hline hlines =>
                rw [hread] at hline
                obtain rfl := Except.ok.inj hline
                exact ⟨_, ih.2 ⟨_, hlines, rfl⟩, (hcons _).symm⟩

end Declaration

/-! ## Code sections -/

namespace CodeSection

variable {sections : Sections}

theorem read_eq (sections : Sections) :
    read sections = (Declaration.readLines (Declaration.numbered sections.allLines 1)).map
      fun declarations =>
        ⟨declarations.filterMap Declaration.injection?,
          declarations.filterMap Declaration.metaObject?⟩ := by
  rw [read, Declaration.codeLines_eq]

/-- The fault of a code section is that of its first line that is no declaration. -/
theorem read_eq_error_iff {fault : Fault} :
    read sections = .error fault ↔
      ∃ before line after cause, sections.allLines = before ++ line :: after ∧
        fault = .codeLine (before.length + 1) cause ∧ Declaration.read line = .error cause ∧
        ∀ earlier ∈ before, ∃ declared, Declaration.read earlier = .ok declared := by
  rw [read_eq, map_eq_error_iff, Declaration.readLines_eq_error_iff]
  simp only [Nat.add_comm 1]

/-- A code section holds what its lines declare. -/
theorem read_eq_ok_iff {code : CodeSection} :
    read sections = .ok code ↔
      ∃ declared, List.Forall₂ (fun line d => Declaration.read line = .ok d)
          sections.allLines declared ∧
        code.injections = declared.reduceOption.filterMap Declaration.injection? ∧
        code.metaObjects = declared.reduceOption.filterMap Declaration.metaObject? := by
  rw [read_eq, map_eq_ok_iff]
  constructor
  · rintro ⟨declarations, hdeclarations, rfl⟩
    obtain ⟨declared, hlines, rfl⟩ := Declaration.readLines_eq_ok_iff.1 hdeclarations
    exact ⟨declared, hlines, rfl, rfl⟩
  · rintro ⟨declared, hlines, hinjections, hmeta⟩
    refine ⟨_, Declaration.readLines_eq_ok_iff.2 ⟨declared, hlines, rfl⟩, ?_⟩
    rw [← hinjections, ← hmeta]

end CodeSection

end StoryTemplate
