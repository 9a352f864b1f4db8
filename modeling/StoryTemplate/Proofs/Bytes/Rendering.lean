import StoryTemplate.Proofs.Bytes.Evaluation
import StoryTemplate.Proofs.Bytes.Injection
import StoryTemplate.Proofs.Bytes.Marking
import StoryTemplate.Render

/-! # Rendering by bytes

    A whole rendering of a template in its UTF-8 form, with every access and every
    subtraction checked.  The passes of a stage are counted in a word of 64 bits, so the
    bound on them has to leave room for one more pass.  With such a bound nothing is ever
    out of place, whatever the template and the values put into it are like, and the
    rendering is the one by characters.

    Main facts: `settle?_eq` (a stage), `renderDocument?_eq` (a document) and
    `render_in_place` (a template, and all that is on the stacks of work). -/

namespace StoryTemplate
namespace Bytes

open String (utf8Len)

variable {α β : Type}

/-! ## Stages -/

/-- The next number, which has to fit in a word of 64 bits. -/
def succ? (n : Nat) : Checked Nat := if n + 1 < 2 ^ 64 then some (n + 1) else none

/-- Goes on with the result of work that has no fault. -/
def andThen? (first : Checked (Except Fault α)) (next : α → Checked (Except Fault β)) :
    Checked (Except Fault β) := do
  match ← first with
  | .error fault => return .error fault
  | .ok a => next a

/-- Repeats the pass until it processes nothing, at most `attempts` times. -/
def settleWithin? (stage : Stage) (limit : UInt64) (pass : α → Checked (Except Fault (α × Nat))) :
    Nat → α → Checked (Except Fault α)
  | 0, _ => some (.error (.passLimit stage limit))
  | attempts + 1, value => do
      match ← pass value with
      | .error fault => return .error fault
      | .ok (next, processed) =>
          if processed = 0 then return .ok next
          else settleWithin? stage limit pass attempts next

/-- Repeats the pass until it processes nothing, where at most `limit` passes may process
    something. -/
def settle? (stage : Stage) (limit : UInt64) (pass : α → Checked (Except Fault (α × Nat)))
    (value : α) : Checked (Except Fault α) := do
  let attempts ← succ? limit.toNat
  settleWithin? stage limit pass attempts value

/-! ## The rendering -/

/-- Divides the template at the first line that holds just the delimiter. -/
def split? (template delimiter : Text) : Checked Sections :=
  let lineBreak := LineBreak.detect template
  let line := lineBreak.delimiterLine delimiter
  match find? line template with
  | none => some ⟨template, none, lineBreak⟩
  | some start => do
      let data ← slice? template ⟨0, start⟩
      let code ← slice? template ⟨start + utf8Len line, utf8Len template⟩
      return ⟨data, some code, lineBreak⟩

/-- Divides the template and reads its code section. -/
def read? (template : Text) (config : Config) : Checked (Except Fault Document) := do
  let sections ← split? template config.codeDelimiter
  return (CodeSection.read sections).map fun code =>
    ⟨sections.data, code.injections, code.metaObjects⟩

/-- Puts the injections into the data. -/
noncomputable def injected? (document : Document) (context : Context) (config : Config) :
    Checked (Except Fault Text) :=
  settle? .injection config.limit
    (fun s => (inject? (document.source context) s).map (Except.map Pass.toPair)) document.data

/-- Evaluates the conditional expressions of a text. -/
noncomputable def evaluated? (context : Context) (config : Config) (s : Text) : Checked (Except Fault Text) :=
  settle? .conditional config.limit
    (fun s => (evaluate? context config.variablePolicy s).map (Except.map Pass.toPair)) s

/-- Takes the anchors out of a text. -/
noncomputable def marked? (config : Config) (s : Text) : Checked (Except Fault Marking) :=
  settle? .anchor config.limit (fun marking => (mark? marking).map .ok) (.ofText s)

/-- Renders the document against the context. -/
noncomputable def renderDocument? (document : Document) (context : Context) (config : Config) :
    Checked (Except Fault Rendered) :=
  andThen? (injected? document context config) fun s =>
    andThen? (evaluated? context config s) fun s =>
      andThen? (marked? config s) fun marking => do
        let (text, objects) ← resolve? marking
        return .ok ⟨text, objects, document.metaObjects⟩

/-- Renders the template against the context. -/
noncomputable def render? (template : Text) (context : Context) (config : Config) :
    Checked (Except Fault Rendered) :=
  andThen? (read? template config) fun document => renderDocument? document context config

/-! ## Stages are in place -/

theorem andThen?_eq {first : Checked (Except Fault α)} {outcome : Except Fault α}
    {next? : α → Checked (Except Fault β)} {next : α → Except Fault β}
    (h : first = some outcome) (hnext : ∀ a, outcome = .ok a → next? a = some (next a)) :
    andThen? first next? = some (outcome.bind next) := by
  rw [andThen?, Checked.bind_of_eq h]
  cases outcome with
  | error fault => rfl
  | ok a => exact hnext a rfl

section Settling

variable {P : α → Prop} {stage : Stage} {limit : UInt64} {attempts : Nat} {value result : α}
  {pass? : α → Checked (Except Fault (α × Nat))} {pass : α → Except Fault (α × Nat)}

/-- What the passes keep holds of the outcome of a stage. -/
theorem settleWithin_keeps (hkeep : ∀ {a b n}, P a → pass a = .ok (b, n) → P b) (h : P value)
    (hsettle : settleWithin stage limit pass attempts value = .ok result) : P result := by
  fun_induction settleWithin stage limit pass attempts value with
  | case1 => exact nomatch hsettle
  | case2 => exact nomatch hsettle
  | case3 attempts value next hlast => exact Except.ok.inj hsettle ▸ hkeep h hlast
  | case4 attempts value next processed hfirst hbusy ih => exact ih (hkeep h hfirst) hsettle

/-- A stage is in place if its passes are, wherever they lead. -/
theorem settleWithin?_eq (hpass : ∀ {a}, P a → pass? a = some (pass a))
    (hkeep : ∀ {a b n}, P a → pass a = .ok (b, n) → P b) (h : P value) :
    settleWithin? stage limit pass? attempts value =
      some (settleWithin stage limit pass attempts value) := by
  fun_induction settleWithin stage limit pass attempts value with
  | case1 => rfl
  | case2 attempts value fault hfault =>
      rw [settleWithin?, Checked.bind_of_eq (hpass h), hfault]
      rfl
  | case3 attempts value next hlast =>
      rw [settleWithin?, Checked.bind_of_eq (hpass h), hlast]
      rfl
  | case4 attempts value next processed hfirst hbusy ih =>
      rw [settleWithin?, Checked.bind_of_eq (hpass h), hfirst]
      exact (if_neg hbusy).trans (ih (hkeep h hfirst))

theorem settle?_eq (hroom : limit.toNat < UInt64.size - 1)
    (hpass : ∀ {a}, P a → pass? a = some (pass a))
    (hkeep : ∀ {a b n}, P a → pass a = .ok (b, n) → P b) (h : P value) :
    settle? stage limit pass? value = some (settle stage limit pass value) := by
  have hsucc : succ? limit.toNat = some (limit.toNat + 1) := if_pos (Nat.add_lt_of_lt_sub hroom)
  rw [settle?, Checked.bind_of_eq hsucc, settle_eq hroom]
  exact settleWithin?_eq hpass hkeep h

end Settling

/-! ## The rendering is in place -/

theorem split?_eq (template delimiter : Text) :
    split? template delimiter = some (Sections.split template delimiter) := by
  rw [split?, Sections.split, LineBreak.findDelimiter, find?]
  generalize (LineBreak.detect template).delimiterLine delimiter = line
  cases hcut : breakOn line template with
  | none => rfl
  | some cut =>
      obtain ⟨data, code⟩ := cut
      have htemplate := breakOn_eq_some hcut
      have hdata : slice? template ⟨0, utf8Len data⟩ = some data :=
        slice?_eq_some_iff.2 ⟨[], line ++ code, by rw [htemplate, List.append_assoc]; rfl, rfl,
          (Nat.zero_add _).symm⟩
      have hcode : slice? template ⟨utf8Len data + utf8Len line, utf8Len template⟩ = some code := by
        refine slice?_eq_some_iff.2 ⟨data ++ line, [], ?_, String.utf8Len_append .., ?_⟩
        · rw [List.append_nil, htemplate]
        · rw [htemplate, String.utf8Len_append, String.utf8Len_append]
      exact (Checked.bind_of_eq hdata _).trans (Checked.bind_of_eq hcode _)

theorem read?_eq (template : Text) (config : Config) :
    read? template config = some (Document.read template config) := by
  rw [read?, Checked.bind_of_eq (split?_eq _ _)]
  rfl

section Documents

variable {config : Config} (hroom : config.limit.toNat < UInt64.size - 1)

include hroom

theorem injected?_eq (document : Document) (context : Context) :
    injected? document context config = some (document.injected context config) := by
  refine settle?_eq (P := fun _ => True) hroom (fun _ => ?_) (fun _ _ => trivial) trivial
  rw [inject?_eq]
  rfl

theorem evaluated?_eq (context : Context) (s : Text) :
    evaluated? context config s = some (Document.evaluated context config s) := by
  refine settle?_eq (P := fun _ => True) hroom (fun _ => ?_) (fun _ _ => trivial) trivial
  rw [evaluate?_eq]
  rfl

/-- Marking is in place, and all placeholders have entries at its end. -/
theorem marked?_eq (s : Text) : marked? config s = some (Document.marked config s) ∧
    ∀ marking, Document.marked config s = .ok marking → Numbered marking := by
  have hkeep : ∀ {marking next : Marking} {n : Nat}, Numbered marking →
      (.ok marking.mark : Except Fault (Marking × Nat)) = .ok (next, n) → Numbered next := by
    intro marking next n h hnext
    have hmark := numbered_mark h
    rwa [Except.ok.inj hnext] at hmark
  have hstart : Numbered (.ofText s) :=
    fun slot hslot => nomatch List.mem_singleton.1 hslot
  refine ⟨settle?_eq hroom (fun h => ?_) hkeep hstart,
    fun marking hmarked => settleWithin_keeps hkeep hstart hmarked⟩
  rw [mark?_eq h]
  rfl

/-- All stages of a rendering are in place. -/
theorem renderDocument?_eq (document : Document) (context : Context) :
    renderDocument? document context config = some (document.render context config) := by
  refine andThen?_eq (injected?_eq hroom document context) fun s _ => ?_
  refine andThen?_eq (evaluated?_eq hroom context s) fun t _ => ?_
  obtain ⟨hmarked, hnumbered⟩ := marked?_eq hroom t
  refine andThen?_eq hmarked fun marking hmarking => ?_
  exact Checked.bind_of_eq (resolve?_eq (hnumbered marking hmarking)) _

end Documents

/-- A rendering is in place from beginning to end if a word of 64 bits can count one pass
    more than are allowed to process something; its outcome is the one by characters.  In
    every state that a pass over any text comes to, the next step is in place, and so are
    the spans on the stack, with all that is read in them. -/
theorem render_in_place (template : Text) (context : Context) (config : Config)
    (h : config.maxPasses.toNat < UInt64.size - 1) :
    render? template context config = some (render template context config) ∧
    (∀ s state, EvaluationReaches context config.variablePolicy s state →
      (evaluationStep? context config.variablePolicy s (bracesOf s) state).isSome = true ∧
      ∀ span ∈ state.pending, Safe s (conditional? s (bracesOf s)) Conditional.branches span) ∧
    ∀ s before marking work, MarkReaches before s marking work →
      (markStep? s (bracesOf s) marking work).isSome = true ∧
      ∀ step ∈ work, Ready (Safe s (anchor? s (bracesOf s)) Anchor.places) marking step := by
  refine ⟨?_, fun s state hreaches => ?_, fun s before marking work hreaches => ?_⟩
  · exact andThen?_eq (read?_eq template config) fun document _ =>
      renderDocument?_eq (Config.limit_lt_iff.2 h) document context
  · exact safe_of_reaches hreaches
  · exact safe_of_markReaches hreaches

/-- Characters of two, three and four bytes stand around the expressions and in them, and
    the last brace is not closed. -/
theorem render_in_place_wide :
    let context : Context :=
      { flags := .ofList [("lit".toList, true)]
        injections := .ofList [("n".toList, "é\x7b< k:v 北 \x7d".toList)] }
    let template := "żółw \x7b lit ? \x7b>n\x7d 𝄞 | ż \x7d \x7b".toList
    let anchored : AnchoredObject := ⟨"北".toList, 6, .ofList [("k".toList, "v".toList)]⟩
    ({} : Config).maxPasses.toNat < UInt64.size - 1 ∧
    render? template context {} = some (.ok ⟨"żółw é北 𝄞 \x7b".toList, [anchored], []⟩) ∧
    Safe template (conditional? template (bracesOf template)) Conditional.branches ⟨0, 34⟩ ∧
    Safe template (anchor? template (bracesOf template)) Anchor.places ⟨0, 34⟩ := by
  intro context template anchored
  have hrender : render template context {} =
      .ok ⟨"żółw é北 𝄞 \x7b".toList, [anchored], []⟩ := by decide +kernel
  have hbound : ({} : Config).maxPasses.toNat < UInt64.size - 1 := by decide
  obtain ⟨hplace, hevaluation, hmarking⟩ := render_in_place template context {} hbound
  refine ⟨hbound, hplace.trans (congrArg some hrender),
    (hevaluation template _ .start).2 _ (.head _), ?_⟩
  cases (hmarking template (.ofText []) _ _ .start).2 _ (.head _) with
  | scan h => exact h

end Bytes
end StoryTemplate
