import StoryTemplate.Proofs.Conditional.Settled
import StoryTemplate.Proofs.Injection.Reach
import StoryTemplate.Proofs.Stages
import StoryTemplate.Proofs.Text.Cuts

/-! # Idle — a pass that has nothing to do

    A stage ends with the first pass that processes nothing, so this count has to be
    right in both ways: a pass may come back empty only if no expression of its kind is
    left, and it has to come back empty then.  The passes skip the braces that open no
    expression, and each of them is looked at; the text around it is copied in pieces
    that make up the text again.

    Main facts: `evaluate_idle_iff` and `mark_idle_iff`, beside `inject_idle_iff` (the count
    of each kind of pass), `resolve_of_idle` (a marking that finds nothing leaves the text)
    and `pass_idle_iff`, with what follows for a template without expressions. -/

namespace StoryTemplate

variable {context : Context} {policy : VariablePolicy} {config : Config} {s t u : Text}

/-! ## Opening braces that open nothing -/

/-- No conditional expression can be read at any opening brace of the text. -/
def Conditional.Rejects (t : Text) : Prop :=
  ∀ o, t[o]? = some '\x7b' → Conditional.parse? t.toArray (.ofText t) o = none

/-- No anchor can be read at any opening of one in the text. -/
def Anchor.Rejects (t : Text) : Prop :=
  ∀ o, t[o]? = some '\x7b' → t[o + 1]? = some '<' →
    Anchor.parse? t.toArray (.ofText t) o = none

theorem Conditional.rejects_iff : Rejects t ↔ Lacks IsBody t := by
  rw [lacks_iff]
  constructor
  · intro h o
    cases hparse : parse? t.toArray (.ofText t) o with
    | none => rfl
    | some found =>
        obtain ⟨before, body, after, rfl, rfl, -, -, -⟩ := exists_of_parse hparse
        exact hparse.symm.trans (h before.length (by simp))
  · intro h o _
    exact h o

theorem Anchor.rejects_iff : Rejects t ↔ Lacks IsBody t := by
  constructor
  · rintro h before body after rfl hbody hanchor
    have hsome := parse_isSome before hbody hanchor after
    obtain ⟨r, rfl, -⟩ := hanchor
    rw [h before.length (by simp) (by simp)] at hsome
    cases hsome
  · intro h o _ _
    cases hparse : parse? t.toArray (.ofText t) o with
    | none => rfl
    | some found =>
        obtain ⟨before, r, after, heq, -, -, hr, hacc, -⟩ := exists_of_parse hparse
        have hbody : Balanced ('<' :: r) := .append (s := ['<']) (by decide) hr
        exact absurd ⟨r, rfl, hacc⟩ (h before ('<' :: r) after heq hbody)

/-! ## Passes of each kind -/

theorem evaluate_idle_iff :
    evaluate context policy t = .ok ⟨u, 0⟩ ↔ u = t ∧ Conditional.Rejects t := by
  rw [evaluate_eq, evaluateNested_idle_iff, Conditional.rejects_iff]

theorem mark_idle_iff : (Marking.ofText t).mark.2 = 0 ↔ Anchor.Rejects t := by
  rw [Marking.mark_ofText, outline_count_eq_zero_iff, Anchor.rejects_iff]

/-- A text without anchors has no objects, and nothing of it is taken out. -/
theorem outline_of_rejects (h : Anchor.Rejects t) :
    (outline t).content = t ∧ (outline t).objects 0 = [] := by
  have hlacks := Anchor.rejects_iff.1 h
  constructor
  · rw [← Outline.cut_content _ 0, (outline_of_lacks hlacks).1]
    rfl
  · rw [← List.length_eq_zero_iff, Outline.length_objects]
    exact outline_count_eq_zero_iff.2 hlacks

theorem resolve_of_idle (h : (Marking.ofText t).mark.2 = 0) :
    (Marking.ofText t).mark.1.resolve = (t, []) := by
  obtain ⟨hcontent, hobjects⟩ := outline_of_rejects (mark_idle_iff.1 h)
  rw [Marking.mark_ofText, Marking.resolve_addTo, hcontent, hobjects]

/-! ## Templates without expressions -/

/-- A template without a delimiter line is all data. -/
theorem Document.read_of_no_delimiter {template : Text}
    (h : ¬ (LineBreak.detect template).delimiterLine config.codeDelimiter <:+: template) :
    Document.read template config = .ok ⟨template, [], []⟩ := by
  have hfind : (LineBreak.detect template).findDelimiter config.codeDelimiter template = none :=
    breakOn_eq_none_iff.2 h
  have hsplit : Sections.split template config.codeDelimiter =
      ⟨template, none, LineBreak.detect template⟩ := by
    simp only [Sections.split, hfind]
  rw [Document.read, hsplit]
  rfl

/-- Data without expressions is the rendering. -/
theorem Document.render_of_rejects {document : Document}
    (hinjections : ∀ name, ¬ Names document.data name)
    (hconditionals : Conditional.Rejects document.data)
    (hanchors : Anchor.Rejects document.data) (hroom : config.limit.toNat < UInt64.size - 1) :
    document.render context config = .ok ⟨document.data, [], document.metaObjects⟩ := by
  obtain ⟨hcontent, hobjects⟩ := outline_of_rejects hanchors
  have hinject : inject (document.source context) document.data = .ok ⟨document.data, 0⟩ :=
    inject_idle_iff.2 ⟨rfl, findInjection_none_iff.2 hinjections⟩
  have hevaluate : evaluate context config.variablePolicy document.data =
      .ok ⟨document.data, 0⟩ := evaluate_idle_iff.2 ⟨rfl, hconditionals⟩
  refine Document.render_eq_ok_iff.2 ⟨document.data, document.data, ?_, ?_, ?_⟩
  · refine settle_of_idle hroom ?_
    rw [hinject]
    rfl
  · refine settle_of_idle hroom ?_
    rw [hevaluate]
    rfl
  · rw [hcontent, hobjects]

end StoryTemplate
