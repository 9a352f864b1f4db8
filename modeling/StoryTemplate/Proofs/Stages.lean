import Mathlib.Control.Monad.Basic
import StoryTemplate.Proofs.Anchor.Settled
import StoryTemplate.Render

/-! # Stages — what a rendering goes through

    A rendering settles three stages one after the other.  The last one is
    marking, and one marking leaves nothing to mark, so it settles under every bound
    that leaves room for a pass at all.  Under the largest bound, where there is none,
    it is the first stage that fails, and a rendering never comes to the last.

    Main facts: `settle_of_idle` (a stage whose first pass finds nothing to do),
    `settle_of_settled` (a stage whose first pass leaves nothing to do),
    `settleWithin_iff` (a stage succeeds if its attempts are enough),
    `Document.render_of_largest` (nothing is rendered under the largest bound, so by
    `Document.bounded_of_render` a rendering that succeeds has another one) and
    `Document.render_eq` (a rendering is the first two stages, and then the outline of
    the text). -/

namespace StoryTemplate

/-- A stage whose first pass finds nothing to do settles at once. -/
theorem settle_of_idle {α : Type} {stage : Stage} {limit : UInt64}
    {pass : α → Except Fault (α × Nat)} {value next : α} (hroom : limit.toNat < UInt64.size - 1)
    (hfirst : pass value = .ok (next, 0)) : settle stage limit pass value = .ok next := by
  rw [settle_eq hroom, settleWithin_succ hfirst, if_pos rfl]

/-- A stage settles with the outcome of its first pass if a second one finds
    nothing to do. -/
theorem settle_of_settled {α : Type} {stage : Stage} {limit : UInt64} {processed : Nat}
    {pass : α → Except Fault (α × Nat)} {value next : α} (hroom : limit.toNat < UInt64.size - 1)
    (hlimit : 1 ≤ limit.toNat) (hfirst : pass value = .ok (next, processed))
    (hsecond : pass next = .ok (next, 0)) : settle stage limit pass value = .ok next := by
  obtain ⟨attempts, hattempts⟩ := Nat.exists_eq_add_of_le' hlimit
  rw [settle_eq hroom, hattempts, settleWithin_succ hfirst, settleWithin_succ hsecond,
    if_pos rfl, ite_self]

/-- Repeating the pass comes from the first text to the second in so many passes that
    process something, and a last one that processes nothing. -/
inductive SettlesIn (pass : Text → Except Fault Pass) : (passes : Nat) → Text → Text → Prop
  | idle {s t : Text} (last : pass s = .ok ⟨t, 0⟩) : SettlesIn pass 0 s t
  | busy {passes : Nat} {s t : Text} {p : Pass} (first : pass s = .ok p)
      (working : 0 < p.processed) (rest : SettlesIn pass passes p.text t) :
      SettlesIn pass (passes + 1) s t

section Settling

variable {pass : Text → Except Fault Pass} {s t : Text} {p : Pass} {passes : Nat}

/-- After a pass that processes nothing there is no other. -/
theorem settlesIn_idle_iff (hp : pass s = .ok p) (hidle : p.processed = 0) :
    SettlesIn pass passes s t ↔ passes = 0 ∧ t = p.text := by
  constructor
  · intro h
    cases h with
    | idle last =>
        rw [hp, Except.ok.injEq] at last
        exact ⟨rfl, congrArg Pass.text last.symm⟩
    | busy first working rest =>
        rw [hp, Except.ok.injEq] at first
        exact absurd hidle (first ▸ working.ne')
  · rintro ⟨rfl, rfl⟩
    exact .idle (hidle ▸ hp)

/-- After a pass that processes something it goes on with the text of the pass. -/
theorem settlesIn_busy_iff (hp : pass s = .ok p) (hbusy : 0 < p.processed) :
    SettlesIn pass passes s t ↔ ∃ more, passes = more + 1 ∧ SettlesIn pass more p.text t := by
  constructor
  · intro h
    cases h with
    | idle last =>
        rw [hp, Except.ok.injEq] at last
        exact absurd (congrArg Pass.processed last) hbusy.ne'
    | busy first working rest =>
        rw [hp, Except.ok.injEq] at first
        exact ⟨_, rfl, first ▸ rest⟩
  · rintro ⟨more, rfl, rest⟩
    exact .busy hp hbusy rest

/-- What settles has a first pass. -/
theorem SettlesIn.exists_first (h : SettlesIn pass passes s t) : ∃ p, pass s = .ok p := by
  cases h with
  | idle last => exact ⟨_, last⟩
  | busy first working rest => exact ⟨_, first⟩

/-- The last pass has nothing to do. -/
theorem SettlesIn.exists_last (h : SettlesIn pass passes s t) :
    ∃ before, pass before = .ok ⟨t, 0⟩ := by
  induction h with
  | idle last => exact ⟨_, last⟩
  | busy first working rest ih => exact ih

/-- A number of attempts is enough if it exceeds the number of passes that process
    something. -/
theorem settleWithin_iff {stage : Stage} {limit : UInt64} {attempts : Nat} :
    settleWithin stage limit (fun s => (pass s).map Pass.toPair) attempts s = .ok t ↔
      ∃ passes, passes < attempts ∧ SettlesIn pass passes s t := by
  induction attempts generalizing s with
  | zero =>
      constructor
      · intro h
        cases h
      · rintro ⟨passes, hlt, -⟩
        exact absurd hlt (Nat.not_lt_zero passes)
  | succ attempts ih =>
      cases hp : pass s with
      | error fault =>
          rw [settleWithin, hp]
          constructor
          · intro h
            cases h
          · rintro ⟨passes, -, hsettles⟩
            obtain ⟨p, hfirst⟩ := hsettles.exists_first
            rw [hp] at hfirst
            cases hfirst
      | ok p =>
          have hpair : (pass s).map Pass.toPair = .ok (p.text, p.processed) := by
            rw [hp]
            rfl
          rw [settleWithin_succ hpair]
          rcases Nat.eq_zero_or_pos p.processed with hidle | hbusy
          · simp only [if_pos hidle, Except.ok.injEq, settlesIn_idle_iff hp hidle]
            constructor
            · rintro rfl
              exact ⟨0, Nat.succ_pos _, rfl, rfl⟩
            · rintro ⟨passes, -, -, rfl⟩
              rfl
          · simp only [if_neg hbusy.ne', ih, settlesIn_busy_iff hp hbusy]
            constructor
            · rintro ⟨more, hlt, hrest⟩
              exact ⟨more + 1, Nat.succ_lt_succ hlt, more, rfl, hrest⟩
            · rintro ⟨passes, hlt, more, rfl, hrest⟩
              exact ⟨more, Nat.lt_of_succ_lt_succ hlt, hrest⟩

end Settling

namespace Document

/-- Under the largest bound the first stage fails before its first pass. -/
theorem injected_of_largest (document : Document) (context : Context) {config : Config}
    (h : ¬ config.limit.toNat < UInt64.size - 1) :
    document.injected context config = .error (.passLimit .injection config.limit) :=
  settle_of_largest h

/-- So nothing is rendered under it, whatever the document is. -/
theorem render_of_largest (document : Document) (context : Context) {config : Config}
    (h : ¬ config.limit.toNat < UInt64.size - 1) :
    document.render context config = .error (.passLimit .injection config.limit) := by
  rw [render, document.injected_of_largest context h]
  rfl

/-- So a rendering that comes to anything else had a bound with room for one more pass. -/
theorem room_of_render {document : Document} {context : Context} {config : Config}
    (h : document.render context config ≠ .error (.passLimit .injection config.limit)) :
    config.limit.toNat < UInt64.size - 1 := by
  by_contra hlargest
  exact h (document.render_of_largest context hlargest)

/-- And so had one that succeeds. -/
theorem bounded_of_render {document : Document} {context : Context} {config : Config}
    {rendered : Rendered} (h : document.render context config = .ok rendered) :
    config.maxPasses.toNat < UInt64.size - 1 := by
  have hother : document.render context config ≠
      .error (.passLimit .injection config.limit) := by
    rw [h]
    nofun
  exact Config.limit_lt_iff.1 (room_of_render hother)

/-- Marking settles on every text. -/
theorem marked_eq {config : Config} (hroom : config.limit.toNat < UInt64.size - 1) (s : Text) :
    marked config s = .ok (Marking.ofText s).mark.1 :=
  settle_of_settled hroom config.one_le_limit rfl (congrArg Except.ok (Marking.mark_mark s))

/-- The outline of the text that is left after the first two stages is the
    rendering. -/
theorem render_eq (document : Document) (context : Context) (config : Config) :
    document.render context config =
      (document.injected context config).bind fun s =>
        (evaluated context config s).map fun s =>
          ⟨(outline s).content, (outline s).objects 0, document.metaObjects⟩ := by
  by_cases hroom : config.limit.toNat < UInt64.size - 1
  case neg =>
    rw [document.render_of_largest context hroom, document.injected_of_largest context hroom]
    rfl
  rw [render]
  cases document.injected context config with
  | error fault => rfl
  | ok s =>
      show (evaluated context config s).bind _ = (evaluated context config s).map _
      cases evaluated context config s with
      | error fault => rfl
      | ok s =>
          show (marked config s).bind _ = _
          rw [marked_eq hroom, Marking.mark_ofText]
          show Except.ok (Rendered.mk ((outline s).addTo ⟨#[], #[]⟩).resolve.1 _ _) = _
          rw [Marking.resolve_addTo]
          rfl

theorem render_eq_ok_iff {document : Document} {context : Context} {config : Config}
    {rendered : Rendered} : document.render context config = .ok rendered ↔
      ∃ s t, document.injected context config = .ok s ∧ evaluated context config s = .ok t ∧
        rendered = ⟨(outline t).content, (outline t).objects 0, document.metaObjects⟩ := by
  rw [render_eq, bind_eq_ok_iff]
  constructor
  · rintro ⟨s, hs, h⟩
    obtain ⟨t, ht, rfl⟩ := map_eq_ok_iff.1 h
    exact ⟨s, t, hs, ht, rfl⟩
  · rintro ⟨s, t, hs, ht, rfl⟩
    exact ⟨s, hs, map_eq_ok_iff.2 ⟨t, ht, rfl⟩⟩

/-- What a successful rendering went through. -/
theorem exists_of_render {document : Document} {context : Context} {config : Config}
    {rendered : Rendered} (h : document.render context config = .ok rendered) :
    ∃ s t, document.injected context config = .ok s ∧ evaluated context config s = .ok t ∧
      rendered = ⟨(outline t).content, (outline t).objects 0, document.metaObjects⟩ :=
  render_eq_ok_iff.1 h

end Document

/-- The rendering of a template is that of a document. -/
theorem exists_of_render {template : Text} {context : Context} {config : Config}
    {rendered : Rendered} (h : render template context config = .ok rendered) :
    ∃ document, Document.read template config = .ok document ∧
      document.render context config = .ok rendered := by
  rw [render] at h
  cases hread : Document.read template config with
  | error fault =>
      rw [hread] at h
      exact nomatch h
  | ok document =>
      rw [hread] at h
      exact ⟨document, rfl, h⟩

end StoryTemplate
