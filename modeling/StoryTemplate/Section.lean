import StoryTemplate.Text.Split

/-! # Sections — the data and the code of a template

    A template is its data, optionally followed by a line that holds the code
    delimiter and nothing else, and then the lines of code.  The template itself
    shows which line break it uses; the delimiter counts only with such a break
    on either side.

    Main facts: `LineBreak.joinWith_lines` (lines lose nothing but the breaks)
    and `Sections.split_of_findDelimiter` (a split loses nothing but the
    delimiter line). -/

namespace StoryTemplate

/-! ## Line breaks -/

/-- The line break that a template uses. -/
inductive LineBreak
  | lf
  | crlf
  | cr
  deriving DecidableEq, Repr

namespace LineBreak

/-- The characters of the line break. -/
def text : LineBreak → Text
  | .lf => ['\n']
  | .crlf => ['\r', '\n']
  | .cr => ['\r']

/-- A carriage return with a line feed if the two stand together anywhere, else
    a line feed if there is one, else a carriage return if there is one.  A
    template of one line counts as using line feeds. -/
def detect (template : Text) : LineBreak :=
  if (breakOn ['\r', '\n'] template).isSome then .crlf
  else if template.contains '\n' || !template.contains '\r' then .lf
  else .cr

theorem length_text_pos (lineBreak : LineBreak) : 0 < lineBreak.text.length := by
  cases lineBreak <;> simp [text]

/-- The lines between the line breaks. -/
def lines (lineBreak : LineBreak) (s : Text) : List Text :=
  match _h : breakOn lineBreak.text s with
  | none => [s]
  | some (line, rest) => line :: lines lineBreak rest
termination_by s.length
decreasing_by
  have hlen := congrArg List.length (breakOn_eq_some _h)
  have := lineBreak.length_text_pos
  simp only [List.length_append] at hlen
  omega

theorem lines_ne_nil (lineBreak : LineBreak) (s : Text) : lineBreak.lines s ≠ [] := by
  unfold lines
  split <;> simp

/-- The lines joined by the line break are the text. -/
theorem joinWith_lines (lineBreak : LineBreak) (s : Text) :
    joinWith lineBreak.text (lineBreak.lines s) = s := by
  fun_induction lines lineBreak s with
  | case1 s h => rfl
  | case2 s line rest h ih =>
    obtain ⟨first, others, hlines⟩ := List.exists_cons_of_ne_nil (lineBreak.lines_ne_nil rest)
    rw [hlines] at ih ⊢
    rw [joinWith, ih, ← breakOn_eq_some h]
    simp

/-- A line that holds just the delimiter, with the line breaks around it. -/
def delimiterLine (lineBreak : LineBreak) (delimiter : Text) : Text :=
  lineBreak.text ++ delimiter ++ lineBreak.text

/-- The texts before and after the first line that holds just the delimiter. -/
def findDelimiter (lineBreak : LineBreak) (delimiter template : Text) : Option (Text × Text) :=
  breakOn (lineBreak.delimiterLine delimiter) template

end LineBreak

/-! ## Sections -/

/-- A template divided at its code delimiter. -/
structure Sections where
  data : Text
  /-- Absent if the template has no delimiter line. -/
  code : Option Text
  lineBreak : LineBreak
  deriving DecidableEq, Repr

namespace Sections

/-- Divides the template at the first line that holds just the delimiter. -/
def split (template delimiter : Text) : Sections :=
  let lineBreak := LineBreak.detect template
  match lineBreak.findDelimiter delimiter template with
  | some (data, code) => ⟨data, some code, lineBreak⟩
  | none => ⟨template, none, lineBreak⟩

/-- All lines of code with their numbers from 1 on, blank lines left out. -/
def codeLines (sections : Sections) : List (Nat × Text) :=
  match sections.code with
  | none => []
  | some code =>
    -- Blank lines are numbered like all others.
    ((sections.lineBreak.lines code).zipIdx 1).filterMap fun (line, number) =>
      if isBlankText line then none else some (number, line)

/-- A template with a code section is its data, the delimiter line and its code. -/
theorem split_of_findDelimiter {template delimiter data code : Text}
    (h : (LineBreak.detect template).findDelimiter delimiter template = some (data, code)) :
    split template delimiter = ⟨data, some code, LineBreak.detect template⟩ ∧
      template = data ++ (LineBreak.detect template).delimiterLine delimiter ++ code := by
  refine ⟨?_, breakOn_eq_some h⟩
  simp only [split, h]

end Sections
end StoryTemplate
