import StoryTemplate.Proofs.Anchor.Locality
import StoryTemplate.Proofs.Bytes.Nesting

/-! # Anchors by bytes

    An anchor is read from a text in its UTF-8 form: its payload begins where the length
    of what is left after the parameters says.  No slice of this reading is out of place,
    and the result is the anchor that is read by characters, whose payload lies between
    the braces.

    Main facts: `anchor?_eq` and `safe_anchors`. -/

namespace StoryTemplate

open String (utf8Len)

/-- The anchor with its payload counted in bytes. -/
def Anchor.inBytes (anchor : Anchor) (src : Source) : Anchor :=
  ⟨anchor.params, anchor.payload.inBytes src⟩

/-- What an anchor holds in its place. -/
def Anchor.places (anchor : Anchor) : List Span := [anchor.payload]

namespace Bytes

/-- Reads the anchor between two braces. -/
def anchorContent? (s : Text) (inner : Span) : Checked (Option Anchor) := do
  match stripPrefix? '<' (← slice? s inner) with
  | none => return none
  | some content =>
      let (params, rest) ← splitRun? Anchor.isParamChar (trimStart content)
      if params = [] ∨ startsWith isBlank rest = false then return none
      else if isBlankText (branchText rest) = true then return none
      else
        let start ← back? inner.start inner.stop (utf8Len (trimStart rest))
        return some ⟨Anchor.readParams params, ⟨start, start + utf8Len (branchText rest)⟩⟩

/-- Reads the anchor whose opening brace is at the position, together with the position of
    its closing brace. -/
def anchor? (s : Text) (braces : BraceMap) (opened : Nat) : Checked (Option (Anchor × Nat)) :=
  readGroup? braces (anchorContent? s) opened

variable {src : Source} {s : Span} {t : Text}

/-- What stands between two braces is read by bytes as it is by characters. -/
theorem anchorContent?_eq (h : s.Shows src t) : anchorContent? src.toList (s.inBytes src) =
    some ((Anchor.content? src s).map (·.inBytes src)) := by
  rw [anchorContent?, Checked.bind_of_eq h.slice?_eq]
  cases hstrip : stripPrefix? '<' t with
  | none =>
      have hhead : t.head? ≠ some '<' := by
        intro hhead
        obtain ⟨r, rfl⟩ := List.head?_eq_some_iff.1 hhead
        rw [stripPrefix?_eq_some_iff.2 rfl] at hstrip
        exact nomatch hstrip
      rw [Anchor.content_eq_none h hhead]
      rfl
  | some r =>
      obtain rfl := stripPrefix?_eq_some_iff.1 hstrip
      have hrest := Anchor.shows_restSpan h
      have hle := Nat.le_of_lt (Anchor.start_lt_restSpan src s)
      rw [Anchor.content_eq_ite h]
      dsimp only
      rw [Checked.bind_of_eq (splitRun?_eq Anchor.isParamChar (trimStart r))]
      show (if Anchor.paramText r = [] ∨ startsWith isBlank (Anchor.afterParams r) = false then _
        else if isBlankText (Anchor.payloadText r) = true then _ else _) = _
      by_cases hacc : Anchor.Accepts r
      · obtain ⟨hparams, hblank, hpayload⟩ := hacc
        have hread : ¬ (Anchor.paramText r = [] ∨
            startsWith isBlank (Anchor.afterParams r) = false) :=
          not_or.2 ⟨hparams, by rw [hblank]; decide⟩
        rw [if_neg hread, if_neg (by rw [hpayload]; decide), if_pos ⟨hparams, hblank, hpayload⟩]
        refine (Checked.bind_of_eq (back?_trimStart hrest hle) _).trans ?_
        rw [Option.map_some, Anchor.inBytes, inBytes_branch hrest]
        rfl
      · rw [if_neg hacc]
        by_cases hparams : Anchor.paramText r = [] ∨
            startsWith isBlank (Anchor.afterParams r) = false
        · rw [if_pos hparams]
          rfl
        · have hblank : isBlankText (Anchor.payloadText r) = true := by
            refine Bool.eq_true_of_not_eq_false fun hpayload => hacc ?_
            obtain ⟨hne, hbegins⟩ := not_or.1 hparams
            exact ⟨hne, Bool.eq_true_of_not_eq_false hbegins, hpayload⟩
          rw [if_neg hparams, if_pos hblank]
          rfl

/-- An anchor is read by bytes as it is by characters. -/
theorem anchor?_eq (src : Source) (opened : Nat) :
    anchor? src.toList (bracesOf src.toList) (src.byteOffset opened) =
      some ((Anchor.parse? src (.ofText src.toList) opened).map fun found =>
        (found.1.inBytes src, src.byteOffset found.2)) := by
  rw [anchor?, Anchor.parse_eq]
  exact readGroup?_eq anchorContent?_eq opened

/-- A payload ends before the closing brace. -/
theorem payload_stop_le {opened close : Nat} {anchor : Anchor}
    (h : Anchor.parse? src (.ofText src.toList) opened = some (anchor, close)) :
    anchor.payload.stop ≤ close := by
  rw [Anchor.parse_eq_some] at h
  obtain ⟨r, -, -, rfl⟩ := Anchor.exists_of_content (Span.Intact.inner h.1).shows_text h.2
  exact Span.branch_stop_le _ src

/-- An intact span is safe for reading anchors. -/
theorem safe_anchors (h : s.Intact src) :
    Safe src.toList (anchor? src.toList (bracesOf src.toList)) Anchor.places (s.inBytes src) := by
  refine safe_inBytes h anchorContent?_eq (fun anchor => rfl) fun {o anchor c} hparse => ?_
  rw [← Anchor.parse_eq] at hparse
  exact List.forall_mem_singleton.2 ⟨Anchor.payload_intact hparse, (Anchor.lt_of_parse hparse).2,
    payload_stop_le hparse⟩

end Bytes
end StoryTemplate
