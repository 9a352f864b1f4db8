import StoryTemplate.Anchor.Expression
import StoryTemplate.Proofs.Source.Intact

/-! # Locality of anchors — an anchor is what stands between its braces

    What an anchor means is decided by the text between its braces: the
    parameters, and after white space the payload.

    Main facts: `content_eq_ite` (the reading of an anchor in terms of text),
    `parse_intact` (in an intact span an anchor is read as one of the text of
    the span), `payload_intact` and `payloadText_balanced` (the payload is a
    text whose braces pair among themselves). -/

namespace StoryTemplate
namespace Anchor

/-- The parameters in the text after `<`. -/
def paramText (t : Text) : Text := (trimStart t).takeWhile isParamChar

/-- What stands after the parameters. -/
def afterParams (t : Text) : Text := (trimStart t).dropWhile isParamChar

/-- The payload, without the layout around it. -/
def payloadText (t : Text) : Text := branchText (afterParams t)

/-- The payload is a part of the text. -/
theorem payloadText_infix (t : Text) : payloadText t <:+: t := by
  have hrest : trimStart (afterParams t) <:+ t :=
    (List.dropWhile_suffix _).trans ((List.dropWhile_suffix _).trans (List.dropWhile_suffix _))
  exact (dropLastSpace_begins _).isInfix.trans hrest.isInfix

/-- Whether the text after `<` makes an anchor: parameters, white space and a
    payload that is not blank. -/
def Accepts (t : Text) : Prop :=
  paramText t ≠ [] ∧ startsWith isBlank (afterParams t) = true ∧
    isBlankText (payloadText t) = false

instance (t : Text) : Decidable (Accepts t) := inferInstanceAs (Decidable (_ ∧ _ ∧ _))

/-- The parameters between two braces, after the first character. -/
def paramSpan (src : Source) (s : Span) : Span :=
  let inner := (Span.mk (s.start + 1) s.stop).skipBlank src
  { inner with stop := inner.find fun i => !src.holdsAt isParamChar i }

/-- What stands after the parameters. -/
def restSpan (src : Source) (s : Span) : Span := ⟨(paramSpan src s).stop, s.stop⟩

theorem noBrace_of_isParamChar {c : Char} (h : isParamChar c = true) : NoBrace c := by
  constructor <;> rintro rfl <;> exact absurd h (by decide)

/-- Reads the anchor between two braces. -/
def content? (src : Source) (s : Span) : Option Anchor :=
  let rest := restSpan src s
  let payload := rest.branch src
  if s.startsWith src '<' && !(paramSpan src s).isEmpty && !rest.isEmpty &&
      src.holdsAt isBlank rest.start && !isBlankText (payload.text src) then
    some ⟨readParams ((paramSpan src s).text src), payload⟩
  else none

/-- An anchor is what stands between its braces. -/
theorem parse_eq (src : Source) (braces : BraceMap) (opened : Nat) :
    parse? src braces opened = braces.readGroup (content? src) opened := by
  rw [parse?, BraceMap.readGroup]
  cases braces.close opened with
  | none => rfl
  | some close =>
      rw [Option.bind_some, content?, apply_ite (Option.map (·, close))]
      rfl

theorem parse_eq_some {src : Source} {braces : BraceMap} {opened close : Nat} {anchor : Anchor} :
    parse? src braces opened = some (anchor, close) ↔
      braces.close opened = some close ∧ content? src ⟨opened + 1, close⟩ = some anchor := by
  rw [parse_eq, BraceMap.readGroup_eq_some]

variable {src sub : Source} {braces pairs : BraceMap} {k : Nat} {s : Span} {t : Text}

theorem shows_paramSpan (h : s.Shows src ('<' :: t)) :
    (paramSpan src s).Shows src (paramText t) :=
  h.tail.skipBlank.run isParamChar

theorem shows_restSpan (h : s.Shows src ('<' :: t)) :
    (restSpan src s).Shows src (afterParams t) :=
  h.tail.skipBlank.afterRun isParamChar

/-- What stands after the parameters begins after the first character. -/
theorem start_lt_restSpan (src : Source) (s : Span) : s.start < (restSpan src s).start :=
  Nat.le_trans (Span.start_le_skipBlank (Span.mk (s.start + 1) s.stop) src)
    (Span.start_le_find _ _)

/-- The reading of an anchor in terms of the text between its braces. -/
theorem content_eq_ite (h : s.Shows src ('<' :: t)) :
    content? src s = if Accepts t then
      some ⟨readParams (paramText t), (restSpan src s).branch src⟩
    else none := by
  have hblank := (shows_restSpan h).startsWithClass isBlank
  rw [content?, h.startsWith_eq, (shows_paramSpan h).isEmpty_eq,
    Bool.and_assoc _ (!_) (src.holdsAt _ _), hblank, (shows_restSpan h).branch.text_eq,
    ← payloadText, (shows_paramSpan h).text_eq]
  by_cases hacc : Accepts t
  · rw [if_pos hacc, if_pos]
    obtain ⟨hparams, hrest, hpayload⟩ := hacc
    rw [hrest, hpayload]
    simpa using hparams
  · rw [if_neg hacc, if_neg]
    intro hcond
    simp only [Bool.and_eq_true, Bool.not_eq_true', List.isEmpty_eq_false_iff] at hcond
    exact hacc ⟨hcond.1.1.2, hcond.1.2, hcond.2⟩

/-- Without `<` there is no anchor. -/
theorem content_eq_none (h : s.Shows src t) (ht : t.head? ≠ some '<') : content? src s = none := by
  rw [content?, h.startsWith_eq, beq_eq_false_iff_ne.2 ht, Bool.false_and, Bool.false_and,
    Bool.false_and, Bool.false_and, if_neg Bool.false_ne_true]

/-- An anchor read at all begins with `<`. -/
theorem exists_of_content {anchor : Anchor} (h : s.Shows src t)
    (hread : content? src s = some anchor) : ∃ r, t = '<' :: r ∧ Accepts r ∧
      anchor = ⟨readParams (paramText r), (restSpan src s).branch src⟩ := by
  rcases t with _ | ⟨c, r⟩
  · rw [content_eq_none h (by simp)] at hread
    exact nomatch hread
  · by_cases hc : c = '<'
    · subst hc
      rw [content_eq_ite h] at hread
      by_cases hacc : Accepts r
      · rw [if_pos hacc, Option.some.injEq] at hread
        exact ⟨r, rfl, hacc, hread.symm⟩
      · rw [if_neg hacc] at hread
        exact nomatch hread
    · rw [content_eq_none h (by simpa using hc)] at hread
      exact nomatch hread

/-! ## Anchors as parts of a longer text -/

/-- The anchor with its payload `k` positions further on. -/
def shift (k : Nat) (anchor : Anchor) : Anchor := ⟨anchor.params, anchor.payload.shift k⟩

theorem restSpan_shift (w : Window src braces sub pairs k) (h : s.Shows sub ('<' :: t)) :
    restSpan src (s.shift k) = (restSpan sub s).shift k := by
  have hstop : (paramSpan src (s.shift k)).stop = (paramSpan sub s).stop + k := by
    rw [paramSpan, paramSpan, Span.tail_shift, w.skipBlank_shift h.tail,
      w.find_shift h.tail.skipBlank]
  rw [restSpan, restSpan, hstop]
  rfl

theorem content_shift (w : Window src braces sub pairs k) (h : s.Shows sub t) :
    content? src (s.shift k) = (content? sub s).map (shift k) := by
  rcases t with _ | ⟨c, r⟩
  · rw [content_eq_none h (by simp), content_eq_none (w.shows_of h) (by simp)]
    rfl
  · by_cases hc : c = '<'
    · subst hc
      rw [content_eq_ite h, content_eq_ite (w.shows_of h), restSpan_shift w h,
        w.branch_shift (shows_restSpan h)]
      by_cases hacc : Accepts r
      · rw [if_pos hacc, if_pos hacc]
        rfl
      · rw [if_neg hacc, if_neg hacc]
        rfl
    · rw [content_eq_none h (by simpa using hc), content_eq_none (w.shows_of h) (by simpa using hc)]
      rfl

/-- An anchor that begins in an intact span is read as one of its text. -/
theorem parse_intact (hs : s.Intact src) (hshow : s.Shows src t) {o : Nat} (ho : o < t.length) :
    parse? src (.ofText src.toList) (o + s.start) =
      (parse? t.toArray (.ofText t) o).map fun found =>
        (found.1.shift s.start, found.2 + s.start) := by
  rw [parse_eq, parse_eq]
  exact hs.readGroup_shift hshow (content_shift hshow.window) ho

/-- An anchor ends in the text. -/
theorem lt_length_of_parse {t : Text} {opened close : Nat} {anchor : Anchor}
    (h : parse? t.toArray (.ofText t) opened = some (anchor, close)) : close < t.length := by
  exact BraceMap.close_lt_length (parse_eq_some.1 h).1

/-! ## Payloads -/

/-- The payload of an anchor is intact. -/
theorem payload_intact {opened close : Nat} {anchor : Anchor}
    (h : parse? src (.ofText src.toList) opened = some (anchor, close)) :
    anchor.payload.Intact src := by
  rw [parse_eq_some] at h
  have hinner : (Span.mk (opened + 1) close).Intact src := .inner h.1
  have hshow := hinner.shows_text
  obtain ⟨r, hr, -, rfl⟩ := exists_of_content hshow h.2
  rw [hr] at hshow
  have hstart := start_lt_restSpan src ⟨opened + 1, close⟩
  exact (hinner.suffix (Nat.le_of_lt hstart) (shows_restSpan hshow).start_le).branch

/-- The braces of a payload pair among themselves. -/
theorem payloadText_balanced {r : Text} (hr : Balanced r) : Balanced (payloadText r) := by
  refine Balanced.branchText ?_
  have hsplit : Balanced (r.takeWhile isBlank ++ (paramText r ++ afterParams r)) := by
    rw [paramText, afterParams, List.takeWhile_append_dropWhile, trimStart_append_eq]
    exact hr
  have hblank : Balanced (r.takeWhile isBlank) :=
    balanced_of_noBrace fun c hc => noBrace_of_isBlank (List.mem_takeWhile_imp hc)
  have hparams : Balanced (paramText r) :=
    balanced_of_noBrace fun c hc => noBrace_of_isParamChar (List.mem_takeWhile_imp hc)
  exact (hsplit.of_append_right hblank).of_append_right hparams

/-! ## Anchors in terms of text -/

/-- Whether the text between two braces is an anchor. -/
def IsBody (body : Text) : Prop := ∃ r, body = '<' :: r ∧ Accepts r

/-- The text around an anchor and in it. -/
theorem exists_of_parse {opened close : Nat} {anchor : Anchor}
    (h : parse? t.toArray (.ofText t) opened = some (anchor, close)) :
    ∃ before r after, t = before ++ '\x7b' :: '<' :: (r ++ '\x7d' :: after) ∧
      before.length = opened ∧ close = opened + r.length + 2 ∧ Balanced r ∧ Accepts r ∧
      anchor.params = readParams (paramText r) ∧
      anchor.payload.text t.toArray = payloadText r := by
  rw [parse_eq_some] at h
  obtain ⟨before, body, after, rfl, hbody, rfl, rfl⟩ := BraceMap.close_ofText_iff.1 h.1
  have hshow := Span.Shows.group before body after
  obtain ⟨r, rfl, hacc, rfl⟩ := exists_of_content hshow h.2
  have hr : Balanced r := hbody.of_append_right (u := ['<']) (by decide)
  refine ⟨before, r, after, rfl, rfl, ?_, hr, hacc, rfl, (shows_restSpan hshow).branch.text_eq⟩
  rw [List.length_cons]
  omega

/-- An anchor is read wherever one stands. -/
theorem parse_isSome (before : Text) {body : Text} (hbody : Balanced body) (h : IsBody body)
    (after : Text) : (parse? (before ++ '\x7b' :: (body ++ '\x7d' :: after)).toArray
      (.ofText (before ++ '\x7b' :: (body ++ '\x7d' :: after))) before.length).isSome = true := by
  obtain ⟨r, rfl, hacc⟩ := h
  have hshow := Span.Shows.group before ('<' :: r) after
  rw [parse_eq, BraceMap.readGroup, BraceMap.close_group before hbody after, Option.bind_some,
    content_eq_ite hshow, if_pos hacc]
  rfl

end Anchor
end StoryTemplate
