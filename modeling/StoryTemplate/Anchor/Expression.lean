import StoryTemplate.Braces
import StoryTemplate.Dict
import StoryTemplate.Text.Split

/-! # Anchor expressions

    An anchor `{< key:value|key:value payload }` attaches parameters to a passage
    of the text.  The parameters are one run of word characters, colons and bars
    that ends at white space; a token between bars that is not a word, a colon
    and a word is passed over.  The payload is the rest of the group without the
    layout around it and may not be blank.

    Main fact: `Anchor.lt_of_parse` (an anchor ends after its opening brace, and
    its payload begins after it). -/

namespace StoryTemplate

/-- An anchor expression; the payload is a span of the text that holds it. -/
structure Anchor where
  params : Dict Text
  payload : Span
  deriving DecidableEq

namespace Anchor

/-- The characters that parameters are written with. -/
def isParamChar (c : Char) : Bool := isWord c || c == ':' || c == '|'

/-- Reads a parameter: a word, a colon and a word. -/
def readParam? (token : Text) : Option (Text × Text) :=
  (splitFirst ':' token).filter fun (key, value) =>
    key ≠ [] && key.all isWord && value ≠ [] && value.all isWord

/-- The parameters among the tokens between the bars; the last one of a key
    counts. -/
def readParams (params : Text) : Dict Text :=
  Dict.ofList ((splitAll '|' params).filterMap readParam?)

/-- Whether an anchor may begin at the position: an opening brace and `<` stand
    there, both before `stop`. -/
def opensAt (src : Source) (stop pos : Nat) : Bool :=
  src.isAt '\x7b' pos && pos + 1 < stop && src.isAt '<' (pos + 1)

/-- Reads the anchor whose opening brace is at the position, together with the
    position of its closing brace. -/
def parse? (src : Source) (braces : BraceMap) (opened : Nat) : Option (Anchor × Nat) :=
  match braces.close opened with
  | none => none
  | some close =>
    let inner := (Span.mk (opened + 2) close).skipBlank src
    let params := { inner with stop := inner.find fun i => !src.holdsAt isParamChar i }
    let rest := Span.mk params.stop close
    let payload := rest.branch src
    if (Span.mk (opened + 1) close).startsWith src '<' && !params.isEmpty && !rest.isEmpty &&
        src.holdsAt isBlank rest.start && !isBlankText (payload.text src) then
      some (⟨readParams (params.text src), payload⟩, close)
    else none

/-- An anchor ends after its opening brace, and its payload begins after it. -/
theorem lt_of_parse {src : Source} {braces : BraceMap} {opened close : Nat} {anchor : Anchor}
    (h : parse? src braces opened = some (anchor, close)) :
    opened < close ∧ opened < anchor.payload.start := by
  unfold parse? at h
  split at h
  · simp at h
  · rename_i close' hclose
    simp only at h
    split at h
    · simp only [Option.some.injEq, Prod.mk.injEq] at h
      obtain ⟨rfl, rfl⟩ := h
      refine ⟨BraceMap.lt_of_close hclose, ?_⟩
      have h₁ := Span.start_le_skipBlank (Span.mk (opened + 2) close') src
      have h₂ := Span.start_le_find ((Span.mk (opened + 2) close').skipBlank src)
        fun i => !src.holdsAt isParamChar i
      have h₃ := Span.start_le_branch
        ⟨((Span.mk (opened + 2) close').skipBlank src).find fun i => !src.holdsAt isParamChar i,
          close'⟩ src
      simp only at h₁ h₂ h₃ ⊢
      omega
    · simp at h

end Anchor
end StoryTemplate
