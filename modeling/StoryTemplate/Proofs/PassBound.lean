import StoryTemplate.Proofs.Conditional.Settled
import StoryTemplate.Proofs.Injection.Reach
import StoryTemplate.Proofs.Stages

/-! # The bound on passes — a rendering is cut off or left alone

    Repeating a pass takes its own course, whatever the bound is: the values go on
    changing for a number of passes, perhaps for ever, and then a pass finds nothing
    to process or fails.  The bound only tells how far the course is followed.  The
    route:

    * every course is `Busy` for all attempts, or it `Ends` before them
      (`busy_or_ends`);
    * a course that ends after `k` busy passes is seen to its end exactly if the bound
      is at least `k` and leaves room for one pass more (`Ends.settle_eq`): under the
      largest word nothing is rendered at all;
    * no pass fails for the bound itself (`Document.pass_ne_passLimit`), so a rendering
      that fails for it was cut off in the stage that the fault names.

    The anchors are all taken out by one pass, so their stage is never the one that is cut
    off.

    Main facts: `render_bound` and `mark_once_settles`. -/

namespace StoryTemplate

/-! ## Repeated passes -/

section Courses

variable {α : Type} {pass : α → Except Fault (α × Nat)} {stage : Stage}
  {limit more : UInt64} {attempts k : Nat} {a b : α} {outcome : Except Fault α}

/-- So many passes in a row process something and lead from the first value to the
    second. -/
inductive Busy (pass : α → Except Fault (α × Nat)) : (passes : Nat) → α → α → Prop
  | none (a : α) : Busy pass 0 a a
  | more {passes processed : Nat} {a b c : α} (first : pass a = .ok (b, processed))
      (working : 0 < processed) (rest : Busy pass passes b c) : Busy pass (passes + 1) a c

/-- After so many passes that process something, the next one processes nothing or
    fails, and this is what it comes to. -/
def Ends (pass : α → Except Fault (α × Nat)) (passes : Nat) (a : α) (outcome : Except Fault α) :
    Prop :=
  ∃ b, Busy pass passes a b ∧ pass b = outcome.map fun last => (last, 0)

/-- All attempts process something, or the course ends within them. -/
theorem busy_or_ends (pass : α → Except Fault (α × Nat)) (attempts : Nat) (a : α) :
    (∃ b, Busy pass attempts a b) ∨
      ∃ passes outcome, passes < attempts ∧ Ends pass passes a outcome := by
  induction attempts generalizing a with
  | zero => exact .inl ⟨a, .none a⟩
  | succ attempts ih =>
      cases hpass : pass a with
      | error fault => exact .inr ⟨0, .error fault, Nat.succ_pos _, a, .none a, hpass⟩
      | ok next =>
          obtain ⟨b, processed⟩ := next
          rcases Nat.eq_zero_or_pos processed with rfl | hworking
          · exact .inr ⟨0, .ok b, Nat.succ_pos _, a, .none a, hpass⟩
          · rcases ih b with ⟨c, hbusy⟩ | ⟨passes, outcome, hlt, c, hbusy, hlast⟩
            · exact .inl ⟨c, .more hpass hworking hbusy⟩
            · exact .inr ⟨passes + 1, outcome, Nat.succ_lt_succ hlt, c,
                .more hpass hworking hbusy, hlast⟩

namespace Busy

/-- Fewer passes than a number of busy ones are busy. -/
theorem take (h : Busy pass k a b) {j : Nat} (hj : j ≤ k) : ∃ c, Busy pass j a c := by
  induction h generalizing j with
  | none a =>
      obtain rfl := Nat.le_zero.1 hj
      exact ⟨a, .none a⟩
  | @more k processed a b c first working rest ih =>
      cases j with
      | zero => exact ⟨a, .none a⟩
      | succ j =>
          obtain ⟨d, hd⟩ := ih (Nat.le_of_succ_le_succ hj)
          exact ⟨d, .more first working hd⟩

/-- Passes that pay for what they process can only be busy as long as there is something
    to pay with. -/
theorem cost (size : α → Nat) (price : Nat)
    (hpass : ∀ {a b : α} {processed : Nat}, pass a = .ok (b, processed) →
      size b + price * processed ≤ size a)
    (h : Busy pass k a b) : size b + price * k ≤ size a := by
  induction h with
  | none a => exact Nat.le_refl _
  | @more passes processed a b c first working rest ih =>
      have hfirst := hpass first
      have hprice : price * 1 ≤ price * processed := Nat.mul_le_mul_left price working
      rw [Nat.mul_add]
      omega

/-- Busy passes use up as many attempts. -/
theorem settleWithin_add (h : Busy pass k a b) (attempts : Nat) :
    settleWithin stage limit pass (k + attempts) a = settleWithin stage limit pass attempts b := by
  induction h with
  | none a => rw [Nat.zero_add]
  | more first working rest ih =>
      rw [Nat.add_right_comm, settleWithin_succ first, if_neg working.ne', ih]

/-- If all attempts are busy the stage fails for its bound. -/
theorem settleWithin_eq (h : Busy pass attempts a b) :
    settleWithin stage limit pass attempts a = .error (.passLimit stage limit) :=
  h.settleWithin_add 0

end Busy

/-- A course that ends is seen to its end if there are more attempts than busy passes,
    and else it is cut off. -/
theorem Ends.settleWithin_eq (h : Ends pass k a outcome) (attempts : Nat) :
    settleWithin stage limit pass attempts a =
      if k < attempts then outcome else .error (.passLimit stage limit) := by
  obtain ⟨b, hbusy, hlast⟩ := h
  by_cases hlt : k < attempts
  · obtain ⟨left, rfl⟩ := Nat.exists_eq_add_of_lt hlt
    rw [if_pos hlt, Nat.add_assoc, hbusy.settleWithin_add, settleWithin, hlast]
    cases outcome with
    | error fault => rfl
    | ok last => rfl
  · obtain ⟨c, hc⟩ := hbusy.take (Nat.le_of_not_lt hlt)
    rw [if_neg hlt, hc.settleWithin_eq]

/-- A stage sees a course to its end if its bound has room for the busy passes and for
    one more. -/
theorem Ends.settle_eq (h : Ends pass k a outcome) :
    settle stage limit pass a =
      if k ≤ limit.toNat ∧ limit.toNat < UInt64.size - 1 then outcome
      else .error (.passLimit stage limit) := by
  by_cases hroom : limit.toNat < UInt64.size - 1
  · rw [StoryTemplate.settle_eq hroom, h.settleWithin_eq]
    exact if_congr (Nat.lt_succ_iff.trans (and_iff_left hroom).symm) rfl rfl
  · rw [settle_of_largest hroom, if_neg fun hk => hroom hk.2]

/-- The work was given up because of a bound on passes. -/
def CutOff {β : Type} (outcome : Except Fault β) : Prop :=
  ∃ stage passes, outcome = .error (.passLimit stage passes)

/-- What is not cut off comes to the same under every larger bound. -/
theorem settle_mono (hle : limit ≤ more) (hmore : more.toNat < UInt64.size - 1)
    (h : ¬ CutOff (settle stage limit pass a)) :
    settle stage more pass a = settle stage limit pass a := by
  have hle' : limit.toNat ≤ more.toNat := UInt64.le_iff_toNat_le.1 hle
  have hroom := Nat.lt_of_le_of_lt hle' hmore
  rcases busy_or_ends pass (limit.toNat + 1) a with ⟨b, hbusy⟩ | ⟨k, outcome, hlt, hends⟩
  · exact absurd ⟨stage, limit, (settle_eq hroom).trans hbusy.settleWithin_eq⟩ h
  · have hk := Nat.le_of_lt_succ hlt
    rw [hends.settle_eq, hends.settle_eq, if_pos ⟨Nat.le_trans hk hle', hmore⟩,
      if_pos ⟨hk, hroom⟩]

/-- A stage whose passes do not fail for a bound fails only for its own, and then every
    pass that the bound allows processed something, and so did the one after them. -/
theorem busy_of_settle {named : Stage} {passes : UInt64} (hroom : limit.toNat < UInt64.size - 1)
    (hpass : ∀ a, ¬ CutOff (pass a))
    (h : settle stage limit pass a = .error (.passLimit named passes)) :
    named = stage ∧ passes = limit ∧ ∃ b, Busy pass (limit.toNat + 1) a b := by
  rcases busy_or_ends pass (limit.toNat + 1) a with ⟨b, hbusy⟩ | ⟨k, outcome, hlt, hends⟩
  · rw [settle_eq hroom, hbusy.settleWithin_eq, Except.error.injEq, Fault.passLimit.injEq] at h
    exact ⟨h.1.symm, h.2.symm, b, hbusy⟩
  · rw [hends.settle_eq, if_pos ⟨Nat.le_of_lt_succ hlt, hroom⟩] at h
    obtain ⟨b, -, hlast⟩ := hends
    subst h
    exact absurd ⟨named, passes, hlast⟩ (hpass b)

/-- A stage fails for its bound or because one of its passes does. -/
theorem exists_of_settle {fault : Fault} (h : settle stage limit pass a = .error fault) :
    fault = .passLimit stage limit ∨ ∃ b, pass b = .error fault := by
  rw [settle] at h
  rcases busy_or_ends pass (limit + 1).toNat a with ⟨b, hbusy⟩ | ⟨k, outcome, hlt, hends⟩
  · rw [hbusy.settleWithin_eq] at h
    exact .inl (Except.error.inj h).symm
  · rw [hends.settleWithin_eq, if_pos hlt] at h
    obtain ⟨b, -, hlast⟩ := hends
    subst h
    exact .inr ⟨b, hlast⟩

end Courses

/-! ## Work in several parts -/

section Parts

variable {α β : Type} {first first' : Except Fault α} {next next' : α → Except Fault β}

/-- Work in two parts comes to the same if each part does, as far as it is not cut
    off. -/
theorem bind_eq_of_not_cutOff (hfirst : ¬ CutOff first → first' = first)
    (hnext : ∀ a, ¬ CutOff (next a) → next' a = next a) (h : ¬ CutOff (first.bind next)) :
    first'.bind next' = first.bind next := by
  cases hresult : first with
  | error fault =>
      rw [hresult] at h hfirst
      have hsame := hfirst fun ⟨stage, passes, heq⟩ =>
        h ⟨stage, passes, congrArg Except.error (Except.error.inj heq)⟩
      rw [hsame]
      rfl
  | ok a =>
      rw [hresult] at h hfirst
      have hsame := hfirst fun ⟨_, _, heq⟩ => nomatch heq
      rw [hsame]
      exact hnext a h

end Parts

/-! ## Faults that have other causes -/

/-- A template that cannot be read has a line of code that is no declaration. -/
theorem Document.exists_of_read {template : Text} {config : Config} {fault : Fault}
    (h : Document.read template config = .error fault) :
    ∃ line cause, fault = .codeLine line cause := by
  rw [Document.read, map_eq_error_iff, CodeSection.read, map_eq_error_iff] at h
  generalize (Sections.split template config.codeDelimiter).codeLines = lines at h
  induction lines with
  | nil => exact nomatch h
  | cons numbered rest ih =>
      obtain ⟨number, line⟩ := numbered
      rw [Declaration.readLines] at h
      split at h
      · rename_i cause _
        exact ⟨number, cause, (Except.error.inj h).symm⟩
      · exact ih h
      · rw [map_eq_error_iff] at h
        exact ih h

/-- An expression that cannot be decided asks for a variable that is not set. -/
theorem Conditional.exists_of_choose {expression : Conditional} {context : Context}
    {policy : VariablePolicy} {fault : Fault}
    (h : expression.choose context policy = .error fault) :
    ∃ name, fault = .unsetFlag name ∨ fault = .unsetVariable name := by
  cases expression with
  | ternary flag whenTrue whenFalse =>
      rw [choose] at h
      split at h
      · cases h
      · split at h
        · exact ⟨flag, .inl (Except.error.inj h).symm⟩
        · cases h
  | matching name arms fallback =>
      rw [choose] at h
      split at h
      · cases h
      · split at h
        · exact ⟨name, .inr (Except.error.inj h).symm⟩
        · cases h

/-- Under the lenient policy every expression is decided. -/
theorem Conditional.strict_of_choose {expression : Conditional} {context : Context}
    {policy : VariablePolicy} {fault : Fault}
    (h : expression.choose context policy = .error fault) : policy = .strict := by
  by_contra hpolicy
  cases expression with
  | ternary flag whenTrue whenFalse =>
      rw [choose, if_neg hpolicy] at h
      split at h
      · cases h
      · cases h
  | matching name arms fallback =>
      rw [choose, if_neg hpolicy] at h
      split at h
      · cases h
      · cases h

/-- A pass over the conditionals fails only with an expression that cannot be decided. -/
theorem exists_choose_of_evaluate {context : Context} {policy : VariablePolicy} {s : Text}
    {fault : Fault} (h : evaluate context policy s = .error fault) :
    ∃ expression : Conditional, expression.choose context policy = .error fault := by
  rw [evaluate_eq] at h
  induction s using brace_induction with
  | text s hnone =>
      rw [evaluateNested_text hnone] at h
      cases h
  | literal before rest hbefore hnone ih =>
      rw [evaluateNested_open hbefore hnone, map_eq_error_iff] at h
      exact ih h
  | group before body after expression hbefore hbody hread ihb ihr =>
      rw [evaluateNested_group hbefore hbody hread] at h
      rcases bind_eq_error_iff.1 h with hchoose | ⟨branch, hchoose, h⟩
      · exact ⟨expression, hchoose⟩
      · rcases bind_eq_error_iff.1 h with hinner | ⟨inner, -, h⟩
        · exact ihb branch (Conditional.mem_branches_of_choose hchoose) hinner
        · exact ihr (map_eq_error_iff.1 h)

theorem exists_of_evaluate {context : Context} {policy : VariablePolicy} {s : Text}
    {fault : Fault} (h : evaluate context policy s = .error fault) :
    ∃ name, fault = .unsetFlag name ∨ fault = .unsetVariable name := by
  obtain ⟨expression, hchoose⟩ := exists_choose_of_evaluate h
  exact Conditional.exists_of_choose hchoose

/-! ## The stages of a rendering -/

namespace Stage

/-- What a stage works on. -/
abbrev State : Stage → Type
  | .injection => Text
  | .conditional => Text
  | .anchor => Marking

/-- What a stage makes of the text that it is given, before its first pass. -/
def start : (stage : Stage) → Text → stage.State
  | .injection, s => s
  | .conditional, s => s
  | .anchor, s => .ofText s

end Stage

namespace Document

variable (document : Document) (context : Context) (config : Config)

/-- One pass of a stage. -/
def pass : (stage : Stage) → stage.State → Except Fault (stage.State × Nat)
  | .injection, s => (inject (document.source context) s).map Pass.toPair
  | .conditional, s => (evaluate context config.variablePolicy s).map Pass.toPair
  | .anchor, marking => .ok marking.mark

/-- What a stage comes to on a text. -/
def settled (stage : Stage) (s : Text) : Except Fault stage.State :=
  settle stage config.limit (document.pass context config stage) (stage.start s)

/-- The stages before the given one settle, and this is the text that they leave to
    it. -/
def Enters : Stage → Text → Prop
  | .injection, s => s = document.data
  | .conditional, s => document.settled context config .injection document.data = .ok s
  | .anchor, s => ∃ t, document.settled context config .injection document.data = .ok t ∧
      document.settled context config .conditional t = .ok s

/-- A rendering is its three stages. -/
theorem render_eq_settled : document.render context config =
    (document.settled context config .injection document.data).bind fun s =>
      (document.settled context config .conditional s).bind fun s =>
        (document.settled context config .anchor s).map fun marking =>
          ⟨marking.resolve.1, marking.resolve.2, document.metaObjects⟩ := by
  show (document.injected context config).bind _ = _
  refine congrArg _ (funext fun s => congrArg _ (funext fun t => ?_))
  show (document.settled context config .anchor t).bind _ = _
  cases document.settled context config .anchor t with
  | error fault => rfl
  | ok marking => rfl

/-- No pass fails for a bound on passes. -/
theorem pass_ne_passLimit (stage : Stage) (a : stage.State) :
    ¬ CutOff (document.pass context config stage a) := by
  rintro ⟨named, passes, h⟩
  cases stage with
  | injection =>
      rw [pass, map_eq_error_iff, inject_eq] at h
      cases explained_of_expand h
  | conditional =>
      rw [pass, map_eq_error_iff] at h
      obtain ⟨name, hname | hname⟩ := exists_of_evaluate h
      · exact nomatch hname
      · exact nomatch hname
  | anchor => exact nomatch h

variable {document context config}

/-- A stage that is cut off was so by its own bound, with all its passes busy. -/
theorem busy_of_settled {stage named : Stage} {passes : UInt64} {s : Text}
    (hroom : config.limit.toNat < UInt64.size - 1)
    (h : document.settled context config stage s = .error (.passLimit named passes)) :
    named = stage ∧ passes = config.limit ∧
      ∃ last, Busy (document.pass context config stage) (passes.toNat + 1) (stage.start s) last := by
  obtain ⟨rfl, rfl, hbusy⟩ :=
    busy_of_settle hroom (document.pass_ne_passLimit context config stage) h
  exact ⟨rfl, rfl, hbusy⟩

/-- A rendering that is cut off behind its first stage had a bound with room for one more
    pass: under the largest word it would not have come so far. -/
theorem room_of_passLimit {stage : Stage} {passes : UInt64} (hstage : stage ≠ .injection)
    (h : document.render context config = .error (.passLimit stage passes)) :
    config.limit.toNat < UInt64.size - 1 := by
  have hother : document.render context config ≠
      .error (.passLimit .injection config.limit) := by
    rw [h]
    rintro ⟨⟩
    exact hstage rfl
  exact room_of_render hother

/-- A rendering that is cut off was so in the stage that the fault names. -/
theorem enters_of_render {stage : Stage} {passes : UInt64}
    (hroom : config.limit.toNat < UInt64.size - 1)
    (h : document.render context config = .error (.passLimit stage passes)) :
    passes = config.limit ∧ ∃ s, document.Enters context config stage s ∧
      ∃ last, Busy (document.pass context config stage) (passes.toNat + 1) (stage.start s) last := by
  rw [render_eq_settled, bind_eq_error_iff] at h
  rcases h with h | ⟨s, hs, h⟩
  · obtain ⟨rfl, hpasses, hbusy⟩ := busy_of_settled hroom h
    exact ⟨hpasses, document.data, rfl, hbusy⟩
  · rw [bind_eq_error_iff] at h
    rcases h with h | ⟨t, ht, h⟩
    · obtain ⟨rfl, hpasses, hbusy⟩ := busy_of_settled hroom h
      exact ⟨hpasses, s, hs, hbusy⟩
    · rw [map_eq_error_iff] at h
      obtain ⟨rfl, hpasses, hbusy⟩ := busy_of_settled hroom h
      exact ⟨hpasses, t, ⟨s, hs, ht⟩, hbusy⟩

end Document

/-! ## Two bounds -/

namespace Config

/-- The configuration with another bound. -/
def boundedBy (config : Config) (passes : UInt64) : Config := { config with maxPasses := passes }

end Config

namespace Document

section Larger

variable {document : Document} {context : Context} {config : Config} {more : UInt64}
  (hle : config.limit ≤ (config.boundedBy more).limit) (hmore : more.toNat < UInt64.size - 1)

include hle hmore

/-- A stage that is not cut off comes to the same under a larger bound. -/
theorem settled_mono {stage : Stage} {s : Text}
    (h : ¬ CutOff (document.settled context config stage s)) :
    document.settled context (config.boundedBy more) stage s =
      document.settled context config stage s :=
  settle_mono hle (Config.limit_lt_iff.2 hmore) h

theorem settled_mono_ok {stage : Stage} {s : Text} {state : stage.State}
    (h : document.settled context config stage s = .ok state) :
    document.settled context (config.boundedBy more) stage s = .ok state := by
  rw [settled_mono hle hmore, h]
  rintro ⟨named, passes, hcut⟩
  rw [h] at hcut
  exact nomatch hcut

/-- The stages that settle do so with the same text under a larger bound. -/
theorem enters_mono {stage : Stage} {s : Text} (h : document.Enters context config stage s) :
    document.Enters context (config.boundedBy more) stage s := by
  cases stage with
  | injection => exact h
  | conditional => exact settled_mono_ok hle hmore h
  | anchor =>
      obtain ⟨t, ht, hs⟩ := h
      exact ⟨t, settled_mono_ok hle hmore ht, settled_mono_ok hle hmore hs⟩

/-- A rendering that is not cut off comes to the same under a larger bound. -/
theorem render_mono (h : ¬ CutOff (document.render context config)) :
    document.render context (config.boundedBy more) = document.render context config := by
  rw [render_eq_settled] at h ⊢
  rw [render_eq_settled]
  refine bind_eq_of_not_cutOff (settled_mono hle hmore) (fun s hs => ?_) h
  refine bind_eq_of_not_cutOff (settled_mono hle hmore) (fun t ht => ?_) hs
  rw [settled_mono hle hmore]
  rintro ⟨named, passes, hcut⟩
  exact ht ⟨named, passes, map_eq_error_iff.2 hcut⟩

end Larger

end Document

namespace Document

variable {document : Document} {context : Context} {config : Config} {passes : Nat}

/-- The first pass over the anchors takes all of them out, so the second one is idle. -/
theorem le_one_of_busy_anchor {s : Text} {last : Marking}
    (h : Busy (document.pass context config .anchor) passes (.ofText s) last) : passes ≤ 1 := by
  cases h with
  | none => exact Nat.zero_le 1
  | more first working rest =>
      cases rest with
      | none => exact Nat.le_refl 1
      | more second working' rest' =>
          obtain rfl := congrArg Prod.fst (Except.ok.inj first)
          have hidle := congrArg Prod.snd (Except.ok.inj second)
          rw [Marking.mark_mark] at hidle
          exact absurd hidle working'.ne

theorem render_ne_passLimit_anchor (document : Document) (context : Context) (config : Config)
    (passes : UInt64) : document.render context config ≠ .error (.passLimit .anchor passes) := by
  intro h
  obtain ⟨rfl, s, -, last, hbusy⟩ := enters_of_render (room_of_passLimit (by decide) h) h
  have hle : config.limit.toNat + 1 ≤ 1 := le_one_of_busy_anchor hbusy
  have hlimit := config.one_le_limit
  omega

end Document

/-- One marking settles every text: a second one finds nothing, and leaves the segments and
    the table as they are.  So the stage of the anchors comes to what one marking comes to
    under every bound with room for one more pass, and no rendering is cut off in it. -/
theorem mark_once_settles :
    (∀ s : Text, (Marking.ofText s).mark.1.mark = ((Marking.ofText s).mark.1, 0)) ∧
    (∀ (config : Config) (s : Text), config.maxPasses.toNat < UInt64.size - 1 →
      Document.marked config s = .ok (Marking.ofText s).mark.1) ∧
    (∀ (document : Document) (context : Context) (config : Config) (passes : UInt64),
      document.render context config ≠ .error (.passLimit .anchor passes)) ∧
    ∀ (template : Text) (context : Context) (config : Config) (passes : UInt64),
      render template context config ≠ .error (.passLimit .anchor passes) := by
  refine ⟨Marking.mark_mark, ?_, Document.render_ne_passLimit_anchor, ?_⟩
  · intro config s hbound
    exact Document.marked_eq (Config.limit_lt_iff.2 hbound) s
  · intro template context config passes h
    rcases bind_eq_error_iff.1 h with hread | ⟨document, -, hrender⟩
    · obtain ⟨line, cause, hfault⟩ := Document.exists_of_read hread
      exact nomatch hfault
    · exact document.render_ne_passLimit_anchor context config passes hrender

/-- A bound of no passes is enough for anchors in anchors. -/
theorem mark_once_settles_nested :
    let template := "\x7b< a:b \x7b< c:d \x7b< e:f x \x7d\x7d\x7d".toList
    let config : Config := { maxPasses := 0 }
    let objects : List AnchoredObject := [⟨"x".toList, 0, .ofList [("a".toList, "b".toList)]⟩,
      ⟨"x".toList, 0, .ofList [("c".toList, "d".toList)]⟩,
      ⟨"x".toList, 0, .ofList [("e".toList, "f".toList)]⟩]
    config.maxPasses.toNat < UInt64.size - 1 ∧
    (Document.marked config template).map Marking.resolve = .ok ("x".toList, objects) ∧
    render template {} config = .ok ⟨"x".toList, objects, []⟩ := by
  intro template config objects
  have hbound : config.maxPasses.toNat < UInt64.size - 1 := by decide
  have hmarked := mark_once_settles.2.1 config template hbound
  have hresolve : (Marking.ofText template).mark.1.resolve = ("x".toList, objects) := by
    decide +kernel
  refine ⟨hbound, ?_, by decide +kernel⟩
  rw [hmarked]
  exact congrArg Except.ok hresolve

end StoryTemplate
