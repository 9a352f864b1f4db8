import StoryTemplate.Proofs.Anchor.Frames
import StoryTemplate.Proofs.Conditional.Settled
import StoryTemplate.Proofs.Injection.Agreement

/-! # Residue — expressions in a final text

    Every stage settles: it leaves no expression of its kind, and the last one takes
    out the frames of all anchors and nothing else.  But a stage is not run again after
    a later one.  A chosen branch may complete an injection, and where an anchor is
    taken out, the text around it and its payload may come together to an expression.

    Main facts: `injected_plain` and `evaluated_plain` (what the first two stages
    leave), `not_render_plain` (an injection in a final text) and `render_residue`
    (an expression of the final text was completed by a later stage). -/

namespace StoryTemplate

variable {document : Document} {context : Context} {config : Config} {s t : Text}

namespace Document

/-- After the first stage there is no injection. -/
theorem injected_plain (h : document.injected context config = .ok s) :
    findInjection? s = none := by
  obtain ⟨passes, -, hsettles⟩ := settleWithin_iff.1 h
  obtain ⟨before, hlast⟩ := hsettles.exists_last
  obtain ⟨rfl, hfind⟩ := inject_idle_iff.1 hlast
  exact hfind

/-- After the second stage there is no conditional. -/
theorem evaluated_plain (h : evaluated context config s = .ok t) : Lacks Conditional.IsBody t := by
  obtain ⟨passes, -, hsettles⟩ := settleWithin_iff.1 h
  obtain ⟨before, hlast⟩ := hsettles.exists_last
  rw [evaluate_eq] at hlast
  obtain ⟨rfl, hlacks⟩ := evaluateNested_idle_iff.1 hlast
  exact hlacks

end Document

/-- No expression of any kind is in the text. -/
def Plain (text : Text) : Prop :=
  findInjection? text = none ∧
    (∀ opened, Conditional.parse? text.toArray (.ofText text) opened = none) ∧
    ∀ opened, Anchor.parse? text.toArray (.ofText text) opened = none

/-- Not every final text is plain: the branch `> x` in `{{ f ? > x | y }}` completes an
    injection. -/
theorem not_render_plain : ¬ ∀ (template : Text) (context : Context) (config : Config)
    (rendered : Rendered), render template context config = .ok rendered →
      Plain rendered.text := by
  intro h
  have hplain := h "\x7b\x7b f ? > x | y \x7d\x7d".toList
    { flags := .ofList [("f".toList, true)], injections := .ofList [("x".toList, "X".toList)] } {}
    ⟨"\x7b> x\x7d".toList, [], []⟩ (by decide +kernel)
  exact absurd hplain.1 (by decide)

/-- Every stage leaves no expression of its kind: after the first one there is no
    injection, after the second one no conditional, and the third one leaves the
    characters that stand in no frame of an anchor.  An expression of the final text was
    completed later.  The braces of a conditional or an anchor stood on the two sides of
    the opening of an anchor that was taken out; those of an injection did so too, or the
    conditionals have put it together. -/
theorem render_residue {template : Text} {rendered : Rendered}
    (h : render template context config = .ok rendered) :
    ∃ document s t, Document.read template config = .ok document ∧
      document.injected context config = .ok s ∧ Document.evaluated context config s = .ok t ∧
      findInjection? s = none ∧
      (∀ opened, Conditional.parse? t.toArray (.ofText t) opened = none) ∧
      rendered.text = charsAt t (unframed t) ∧
      (∀ opened close expression, Conditional.parse? rendered.text.toArray (.ofText rendered.text)
        opened = some (expression, close) → Joined t opened close) ∧
      (∀ opened close anchor, Anchor.parse? rendered.text.toArray (.ofText rendered.text)
        opened = some (anchor, close) → Joined t opened close) ∧
      ∀ before name body after, IsInjection name body →
        rendered.text = before ++ '\x7b' :: (body ++ '\x7d' :: after) →
        Joined t before.length (before.length + 1 + body.length) ∨
          '\x7b' :: (body ++ ['\x7d']) <:+: t ∧ ¬ '\x7b' :: (body ++ ['\x7d']) <:+: s := by
  obtain ⟨document, hread, hrender⟩ := exists_of_render h
  obtain ⟨s, t, hs, ht, rfl⟩ := Document.exists_of_render hrender
  have hinjections := Document.injected_plain hs
  have hconditionals := Document.evaluated_plain ht
  refine ⟨document, s, t, hread, hs, ht, hinjections, Conditional.lacks_iff.1 hconditionals,
    content_outline t, ?_, ?_, ?_⟩
  · intro opened close expression hparse
    obtain ⟨before, body, after, heq, rfl, rfl, hbody, hcond⟩ := Conditional.exists_of_parse hparse
    exact joined_of_group (hconditionals.mono fun body hbody => hbody.1) heq hbody hcond
  · intro opened close anchor hparse
    obtain ⟨before, r, after, heq, rfl, rfl, hr, hacc, -⟩ := Anchor.exists_of_parse hparse
    have hbody : Balanced ('<' :: r) := .append (s := ['<']) (by decide) hr
    have hjoined := joined_of_group (lacks_both Anchor.IsBody t) heq hbody ⟨r, rfl, hacc⟩
    rw [List.length_cons, Nat.add_assoc, Nat.add_comm 1] at hjoined
    exact hjoined
  · intro before name body after hinjection heq
    have hbody := balanced_of_noBrace hinjection.noBrace
    by_cases hwhole : '\x7b' :: (body ++ ['\x7d']) <:+: t
    · -- The injection stands whole in the text that the conditionals have left.
      refine .inr ⟨hwhole, ?_⟩
      rintro ⟨before', after', hs'⟩
      refine findInjection_eq_none_iff.1 hinjections before' body after' ?_ hbody ⟨name, hinjection⟩
      rw [← hs']
      simp
    · refine .inl (joined_of_group (q := (· = body)) ?_ heq hbody rfl)
      rintro before' _ after' rfl - ⟨rfl, -⟩
      exact hwhole ⟨before', after', by simp⟩

/-- A conditional that is left of `{ {< k:v f ? a | b } }`, and an anchor that is left of
    `{{< a:b < k:v x} }`. -/
theorem render_residue_joined :
    let conditional := "\x7b \x7b< k:v f ? a | b \x7d \x7d".toList
    let anchor := "\x7b\x7b< a:b < k:v x\x7d \x7d".toList
    let first : Rendered := ⟨"\x7b f ? a | b \x7d".toList,
      [⟨"f ? a | b".toList, 2, .ofList [("k".toList, "v".toList)]⟩], []⟩
    let second : Rendered := ⟨"\x7b< k:v x \x7d".toList,
      [⟨"< k:v x".toList, 1, .ofList [("a".toList, "b".toList)]⟩], []⟩
    (render conditional {} {} = .ok first ∧
      Conditional.parse? first.text.toArray (.ofText first.text) 0 =
        some (.ternary "f".toList ⟨6, 7⟩ ⟨10, 11⟩, 12) ∧ Joined conditional 0 12) ∧
    render anchor {} {} = .ok second ∧
      Anchor.parse? second.text.toArray (.ofText second.text) 0 =
        some (⟨.ofList [("k".toList, "v".toList)], ⟨7, 8⟩⟩, 9) ∧ Joined anchor 0 9 := by
  intro conditional anchor first second
  -- The first two stages leave these data as they are.
  have hkept : ∀ {template s t : Text} {document : Document},
      Document.read template {} = .ok document → document.injected {} {} = .ok s →
        Document.evaluated {} {} s = .ok t → Document.read template {} = .ok ⟨template, [], []⟩ →
        Document.injected ⟨template, [], []⟩ {} {} = .ok template →
        Document.evaluated {} {} template = .ok template → t = template := by
    intro template s t document hread hs ht hread' hs' ht'
    obtain rfl := Except.ok.inj (hread.symm.trans hread')
    obtain rfl := Except.ok.inj (hs.symm.trans hs')
    exact Except.ok.inj (ht.symm.trans ht')
  constructor
  · have hrender : render conditional {} {} = .ok first := by decide +kernel
    have hparse : Conditional.parse? first.text.toArray (.ofText first.text) 0 =
        some (.ternary "f".toList ⟨6, 7⟩ ⟨10, 11⟩, 12) := by decide +kernel
    obtain ⟨document, s, t, hread, hs, ht, -, -, -, hconditional, -⟩ := render_residue hrender
    obtain rfl := hkept hread hs ht (by decide +kernel) (by decide +kernel) (by decide +kernel)
    exact ⟨hrender, hparse, hconditional 0 12 _ hparse⟩
  · have hrender : render anchor {} {} = .ok second := by decide +kernel
    have hparse : Anchor.parse? second.text.toArray (.ofText second.text) 0 =
        some (⟨.ofList [("k".toList, "v".toList)], ⟨7, 8⟩⟩, 9) := by decide +kernel
    obtain ⟨document, s, t, hread, hs, ht, -, -, -, -, hanchor, -⟩ := render_residue hrender
    obtain rfl := hkept hread hs ht (by decide +kernel) (by decide +kernel) (by decide +kernel)
    exact ⟨hrender, hparse, hanchor 0 9 _ hparse⟩

end StoryTemplate
