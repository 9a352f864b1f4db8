import StoryTemplate.Proofs.Anchor.Locality
import StoryTemplate.Proofs.Conditional.Bodies
import StoryTemplate.Proofs.Text.Cuts

/-! # Anchors as they are written

    An anchor is written `{< k:v|k2:v2 P }`.  Its parameters are read back, and if
    the payload is not blank, the braces make an anchor of which it is the
    payload, without the white space in front.

    Main facts: `Params.read_text`, `Anchor.accepts_written` and
    `Anchor.payloadText_written`. -/

namespace StoryTemplate

/-! ## Parameters -/

/-- The parameters of an anchor as they are written: keys and values, at least
    one of each. -/
structure Params where
  first : Word × Word
  others : List (Word × Word)

namespace Params

/-- A key and a value with a colon between them. -/
def token (param : Word × Word) : Text := param.1.text ++ ':' :: param.2.text

def tokens (params : Params) : List Text := (params.first :: params.others).map token

/-- The parameters with bars between them. -/
def text (params : Params) : Text := joinWith ['|'] params.tokens

/-- The values by their keys; the last value of a key counts. -/
def toDict (params : Params) : Dict Text :=
  .ofList ((params.first :: params.others).map fun param => (param.1.text, param.2.text))

theorem token_isParamChar (param : Word × Word) : ∀ c ∈ token param, Anchor.isParamChar c = true := by
  intro c hc
  rw [Anchor.isParamChar]
  rcases List.mem_append.1 hc with hc | hc
  · rw [param.1.all_isWord c hc]
    rfl
  · rcases List.mem_cons.1 hc with rfl | hc
    · decide
    · rw [param.2.all_isWord c hc]
      rfl

theorem text_isParamChar (params : Params) : ∀ c ∈ params.text, Anchor.isParamChar c = true := by
  refine forall_mem_joinWith (by decide) fun t ht => ?_
  obtain ⟨param, -, rfl⟩ := List.mem_map.1 ht
  exact token_isParamChar param

theorem bar_not_mem_token (param : Word × Word) : '|' ∉ token param := by
  intro h
  rcases List.mem_append.1 h with h | h
  · exact param.1.ne_of_not_isWord (by decide) _ h rfl
  · rcases List.mem_cons.1 h with h | h
    · exact absurd h (by decide)
    · exact param.2.ne_of_not_isWord (by decide) _ h rfl

/-- The text begins with the first key. -/
theorem exists_text (params : Params) : ∃ r, params.text = params.first.1.text ++ r := by
  rw [text, tokens, List.map_cons, token]
  cases params.others with
  | nil => exact ⟨_, rfl⟩
  | cons param others =>
      refine ⟨':' :: (params.first.2.text ++ '|' :: joinWith ['|'] ((param :: others).map token)), ?_⟩
      show (params.first.1.text ++ ':' :: params.first.2.text) ++ ['|'] ++ joinWith _ _ = _
      simp

theorem readParam_token (param : Word × Word) :
    Anchor.readParam? (token param) = some (param.1.text, param.2.text) := by
  have hcolon : ':' ∉ param.1.text := fun h => param.1.ne_of_not_isWord (by decide) _ h rfl
  rw [Anchor.readParam?, token, splitFirst_append hcolon, Option.filter_some_pos]
  have hkey : param.1.text.all isWord = true := List.all_eq_true.2 param.1.all_isWord
  have hvalue : param.2.text.all isWord = true := List.all_eq_true.2 param.2.all_isWord
  simp [hkey, hvalue, param.1.ne_nil, param.2.ne_nil]

/-- Written parameters are read back. -/
theorem read_text (params : Params) : Anchor.readParams params.text = params.toDict := by
  have hsplit : splitAll '|' params.text = params.tokens := by
    refine splitAll_joinWith (List.cons_ne_nil _ _) fun t ht => ?_
    obtain ⟨param, -, rfl⟩ := List.mem_map.1 ht
    exact bar_not_mem_token param
  rw [Anchor.readParams, hsplit, tokens, toDict, List.filterMap_map]
  congr 1
  rw [← List.filterMap_eq_map]
  congr 1
  funext param
  exact readParam_token param

end Params

namespace Anchor

/-! ## Anchors -/

/-- What is written between the braces of an anchor. -/
def writtenBody (params : Params) (payload : Text) : Text :=
  '<' :: ' ' :: (params.text ++ padded payload)

variable {params : Params} {payload : Text}

theorem trimStart_written (params : Params) (payload : Text) :
    trimStart (' ' :: (params.text ++ padded payload)) = params.text ++ padded payload := by
  obtain ⟨r, hr⟩ := params.exists_text
  rw [hr, List.append_assoc]
  exact trimStart_blank isBlank_space (params.first.1.startsWith_isBlank _)

theorem paramText_written (params : Params) (payload : Text) :
    paramText (' ' :: (params.text ++ padded payload)) = params.text := by
  rw [paramText, trimStart_written]
  refine takeWhile_append_stop params.text_isParamChar ?_
  rintro c ⟨⟩
  decide

theorem afterParams_written (params : Params) (payload : Text) :
    afterParams (' ' :: (params.text ++ padded payload)) = padded payload := by
  rw [afterParams, trimStart_written]
  refine dropWhile_append_stop params.text_isParamChar ?_
  rintro c ⟨⟩
  decide

/-- The payload loses the white space in front of it. -/
theorem payloadText_written (params : Params) (h : isBlankText payload = false) :
    payloadText (' ' :: (params.text ++ padded payload)) = trimStart payload := by
  have hspace : trimStart (padded payload) = trimStart (payload ++ [' ']) := rfl
  have hne : trimStart payload ≠ [] := by
    rw [Ne, trimStart_eq_nil_iff, h]
    decide
  rw [payloadText, afterParams_written, branchText, hspace, trimStart, List.dropWhile_append,
    if_neg (by simpa [trimStart] using hne), dropLastSpace_append]
  rfl

theorem accepts_written (params : Params) (h : isBlankText payload = false) :
    Accepts (' ' :: (params.text ++ padded payload)) := by
  refine ⟨?_, ?_, ?_⟩
  · rw [paramText_written]
    obtain ⟨r, hr⟩ := params.exists_text
    rw [hr]
    exact fun hnil => params.first.1.ne_nil (List.append_eq_nil_iff.1 hnil).1
  · rw [afterParams_written]
    rfl
  · rw [payloadText_written params h, ← h, ← trimStart_append_eq payload, isBlankText, isBlankText,
      List.all_append, trimStart_append_eq]
    have hblank : (payload.takeWhile isBlank).all isBlank = true :=
      List.all_eq_true.2 fun c hc => List.mem_takeWhile_imp hc
    rw [hblank, Bool.true_and]

end Anchor
end StoryTemplate
