import StoryTemplate.Proofs.Conditional.Grammar
import StoryTemplate.Proofs.PassBound

/-! # Deletion — conditionals only take text away

    An expression gives way to a part of it.  What it loses is at least its two braces,
    a character of its first word, and the two marks of a ternary or the colon and a
    character of the value of a matching, five characters in all.  So a pass leaves
    some of the characters that it was given, in their order, and every expression that
    it processed costs it five of them.

    Texts do not shrink for ever.  The expressions that come about in a pass, from what
    others leave, are paid for by the same characters, and so a stage settles if the
    bound on its passes is large enough for the text that enters it.

    Main facts: `evaluateNested_deletes` (one pass), `length_of_busy` (passes in a row)
    and `conditionals_delete`. -/

namespace StoryTemplate

theorem branchText_infix (t : Text) : branchText t <:+: t :=
  (dropLastSpace_begins (trimStart t)).isInfix.trans (List.dropWhile_suffix isBlank).isInfix

namespace Conditional

/-! ## What an expression loses -/

/-- The branches as they are written. -/
def Form.branches : Form → List Text
  | .ternary f => [f.whenTrue, f.whenFalse]
  | .matching f => f.fallback :: f.primary :: f.arms.map Arm.branch

/-- A matching holds its branches behind its words. -/
theorem Matching.exists_of_branch (f : Matching) {branch : Text}
    (h : branch ∈ f.fallback :: f.primary :: f.arms.map Arm.branch) :
    branch <:+: joinWith ['|'] f.divided := by
  rcases List.mem_cons.1 h with rfl | h
  · exact infix_joinWith (by simp [Matching.divided])
  · rcases List.mem_cons.1 h with rfl | h
    · exact infix_joinWith (List.mem_cons_self ..)
    · obtain ⟨arm, harm, rfl⟩ := List.mem_map.1 h
      have harm' : arm.text ∈ f.divided := by
        exact .tail _ (List.mem_append_left _ (List.mem_map_of_mem harm))
      have hbranch : arm.branch <:+: arm.text := ⟨':' :: arm.value.text, [], by simp [Arm.text]⟩
      exact hbranch.trans (infix_joinWith harm')

/-- A form is a branch and at least three more characters. -/
theorem Form.exists_of_branch (form : Form) {branch : Text} (h : branch ∈ form.branches) :
    ∃ before after, form.text = before ++ (branch ++ after) ∧
      3 ≤ before.length + after.length := by
  cases form with
  | ternary f =>
      have hflag := List.length_pos_iff.2 f.flag.ne_nil
      rcases List.mem_cons.1 h with rfl | h
      · refine ⟨f.lead ++ (f.flag.text ++ (f.gap ++ ['?'])), '|' :: f.whenFalse, ?_, ?_⟩
        · simp [Form.text, Ternary.text]
        · simp only [List.length_append, List.length_cons]
          omega
      · obtain rfl := List.mem_singleton.1 h
        refine ⟨f.lead ++ (f.flag.text ++ (f.gap ++ '?' :: (f.whenTrue ++ ['|']))), [], ?_, ?_⟩
        · simp [Form.text, Ternary.text]
        · simp only [List.length_append, List.length_cons]
          omega
  | matching f =>
      have hname := List.length_pos_iff.2 f.name.ne_nil
      have hvalue := List.length_pos_iff.2 f.value.ne_nil
      obtain ⟨before, after, heq⟩ := f.exists_of_branch h
      refine ⟨f.lead ++ (f.name.text ++ ':' :: (f.value.text ++ before)), after, ?_, ?_⟩
      · simp [Form.text, Matching.text, ← heq]
      · simp only [List.length_append, List.length_cons]
        omega

/-- Every span of an expression stands for a branch of its form. -/
theorem Form.Says.exists_branch {src : Source} {form : Form} {expression : Conditional}
    (h : form.Says src expression) : ∀ span ∈ expression.branches,
      ∃ branch ∈ form.branches, span.text src = branchText branch := by
  intro span hspan
  cases form with
  | ternary f =>
      cases expression with
      | matching name arms fallback => cases h
      | ternary flag whenTrue whenFalse =>
          obtain ⟨-, htrue, hfalse⟩ := h
          rcases List.mem_cons.1 hspan with rfl | hspan
          · exact ⟨f.whenTrue, .head _, htrue⟩
          · obtain rfl := List.mem_singleton.1 hspan
            exact ⟨f.whenFalse, .tail _ (.head _), hfalse⟩
  | matching f =>
      cases expression with
      | ternary flag whenTrue whenFalse => cases h
      | matching name arms fallback =>
          obtain ⟨-, harms, hfallback⟩ := h
          rcases List.mem_cons.1 hspan with rfl | hspan
          · exact ⟨f.fallback, .head _, hfallback⟩
          · obtain ⟨arm, harm, rfl⟩ := List.mem_map.1 hspan
            have htext : (arm.1, arm.2.text src) ∈ armTexts src arms :=
              List.mem_map.2 ⟨arm, harm, rfl⟩
            rw [harms] at htext
            rcases List.mem_cons.1 htext with heq | htext
            · exact ⟨f.primary, .tail _ (.head _), congrArg Prod.snd heq⟩
            · obtain ⟨written, hwritten, heq⟩ := List.mem_map.1 htext
              exact ⟨written.branch, .tail _ (.tail _ (List.mem_map_of_mem hwritten)),
                (congrArg Prod.snd heq).symm⟩

/-- A branch is a part of what stands between the braces, and three characters are not in it. -/
theorem branch_deletes {body : Text} {expression : Conditional} (hbody : Balanced body)
    (hread : ofBody? body = some expression) : ∀ branch ∈ expression.branches,
      (branch.text body.toArray).Sublist body ∧
        (branch.text body.toArray).length + 3 ≤ body.length := by
  intro span hspan
  obtain ⟨form, rfl⟩ := exists_form (Span.Shows.whole body) hbody hread
  have hshow := Span.Shows.whole form.text
  have hform := Option.some.inj ((content_of_form form hshow).symm.trans hread)
  have hsays := says_expression form hshow
  rw [hform] at hsays
  obtain ⟨branch, hbranch, htext⟩ := hsays.exists_branch span hspan
  obtain ⟨before, after, heq, hlen⟩ := form.exists_of_branch hbranch
  have hinfix := branchText_infix branch
  have hshort := hinfix.length_le
  rw [htext]
  constructor
  · exact hinfix.sublist.trans (List.IsInfix.sublist ⟨before, after, by rw [heq]; simp⟩)
  · rw [heq, List.length_append, List.length_append]
    omega

end Conditional

open Conditional

variable {context : Context} {policy : VariablePolicy}

/-! ## What a pass loses -/

/-- A pass keeps some of the characters in their order, and pays five for every expression. -/
theorem evaluateNested_deletes {s : Text} {p : Pass}
    (h : evaluateNested context policy s = .ok p) :
    p.text.Sublist s ∧ p.text.length + 5 * p.processed ≤ s.length := by
  induction s using brace_induction generalizing p with
  | text s hnone =>
      rw [evaluateNested_text hnone, Except.ok.injEq] at h
      subst h
      exact ⟨List.Sublist.refl s, Nat.le_refl _⟩
  | literal before rest hbefore hnone ih =>
      rw [evaluateNested_open hbefore hnone] at h
      obtain ⟨q, hq, rfl⟩ := map_eq_ok_iff.1 h
      obtain ⟨hsub, hlen⟩ := ih hq
      have hshape : before ++ '\x7b' :: rest = before ++ ['\x7b'] ++ rest := by simp
      rw [hshape]
      constructor
      · exact (List.Sublist.refl _).append hsub
      · simp only [Pass.copyBefore, List.length_append] at hlen ⊢
        omega
  | group before body after expression hbefore hbody hread ihb ihr =>
      rw [evaluateNested_group hbefore hbody hread] at h
      obtain ⟨branch, hchoose, h⟩ := bind_eq_ok_iff.1 h
      obtain ⟨inner, hinner, h⟩ := bind_eq_ok_iff.1 h
      obtain ⟨rest, hrest, rfl⟩ := map_eq_ok_iff.1 h
      have hmem := mem_branches_of_choose hchoose
      obtain ⟨hbranch, hthree⟩ := branch_deletes hbody hread branch hmem
      obtain ⟨hsub, hlen⟩ := ihb branch hmem hinner
      obtain ⟨hsub', hlen'⟩ := ihr hrest
      constructor
      · have hinside : inner.text.Sublist ('\x7b' :: (body ++ ['\x7d'])) :=
          ((hsub.trans hbranch).trans (List.sublist_append_left body ['\x7d'])).cons '\x7b'
        have hwhole := ((List.Sublist.refl before).append hinside).append hsub'
        simpa [Pass.append, Pass.copyBefore] using hwhole
      · simp only [Pass.append, Pass.copyBefore, List.length_append, List.length_cons]
        omega

theorem evaluate_deletes {s : Text} {p : Pass} (h : evaluate context policy s = .ok p) :
    p.text.Sublist s ∧ p.text.length + 5 * p.processed ≤ s.length := by
  rw [evaluate_eq] at h
  exact evaluateNested_deletes h

/-! ## What passes in a row lose -/

namespace Document

variable {document : Document} {config : Config} {s : Text}

/-- Of a text that passes over the conditionals are busy with, each has taken five
    characters. -/
theorem length_of_busy {passes : Nat} {last : Text}
    (h : Busy (document.pass context config .conditional) passes s last) :
    last.length + 5 * passes ≤ s.length := by
  refine h.cost List.length 5 ?_
  intro s t processed hpass
  obtain ⟨p, hp, heq⟩ := map_eq_ok_iff.1 hpass
  obtain ⟨rfl, rfl⟩ := Prod.mk.inj heq
  exact (evaluate_deletes hp).2

/-- A text that is short for the bound is not cut off. -/
theorem not_cutOff_evaluated (hroom : config.limit.toNat < UInt64.size - 1)
    (h : s.length < 5 * (config.limit.toNat + 1)) :
    ¬ CutOff (evaluated context config s) := by
  rintro ⟨stage, passes, hcut⟩
  have hsettled : (Document.mk s [] []).settled context config .conditional s =
      .error (.passLimit stage passes) := hcut
  obtain ⟨-, rfl, last, hbusy⟩ := busy_of_settled hroom hsettled
  have hlen := length_of_busy hbusy
  change last.length + 5 * (config.limit.toNat + 1) ≤ s.length at hlen
  omega

/-- The stage fails for its bound, or under the strict policy for a variable that is not set. -/
theorem exists_of_evaluated {fault : Fault} (h : evaluated context config s = .error fault) :
    CutOff (evaluated context config s) ∨ config.variablePolicy = .strict ∧
      ∃ name, fault = .unsetFlag name ∨ fault = .unsetVariable name := by
  rcases exists_of_settle h with rfl | ⟨t, ht⟩
  · exact .inl ⟨_, _, h⟩
  · obtain ⟨expression, hchoose⟩ := exists_choose_of_evaluate (map_eq_error_iff.1 ht)
    exact .inr ⟨strict_of_choose hchoose, exists_of_choose hchoose⟩

end Document

/-! ## The stage settles -/

/-- **Conditionals only delete text, and enough of it to settle.**  What a pass leaves is a
    subsequence of the text, with five characters less for every expression.  So the stage
    settles on a text that is short for the bound, if that leaves room for one more pass,
    unless the strict policy asks for a variable that is not set; and a rendering is cut off
    in it only if a text of at least five characters for every busy pass has entered it. -/
theorem conditionals_delete :
    (∀ (context : Context) (policy : VariablePolicy) (s : Text) (p : Pass),
      evaluate context policy s = .ok p →
        p.text.Sublist s ∧ p.text.length + 5 * p.processed ≤ s.length) ∧
    (∀ (context : Context) (config : Config) (s : Text),
      config.maxPasses.toNat < UInt64.size - 1 → s.length < 5 * (config.limit.toNat + 1) →
      (∃ t, Document.evaluated context config s = .ok t) ∨
        config.variablePolicy = .strict ∧ ∃ name,
          Document.evaluated context config s = .error (.unsetFlag name) ∨
            Document.evaluated context config s = .error (.unsetVariable name)) ∧
    ∀ (template : Text) (context : Context) (config : Config) (passes : UInt64),
      render template context config = .error (.passLimit .conditional passes) →
        ∃ document s, Document.read template config = .ok document ∧
          document.injected context config = .ok s ∧ 5 * (passes.toNat + 1) ≤ s.length := by
  refine ⟨fun context policy s p h => evaluate_deletes h, ?_, ?_⟩
  · intro context config s hbound hshort
    cases hstage : Document.evaluated context config s with
    | ok t => exact .inl ⟨t, rfl⟩
    | error fault =>
        rcases Document.exists_of_evaluated hstage with hcut | ⟨hstrict, name, hname⟩
        · exact absurd hcut (Document.not_cutOff_evaluated (Config.limit_lt_iff.2 hbound) hshort)
        · rcases hname with rfl | rfl
          · exact .inr ⟨hstrict, name, .inl rfl⟩
          · exact .inr ⟨hstrict, name, .inr rfl⟩
  · intro template context config passes h
    rcases bind_eq_error_iff.1 h with hread | ⟨document, hread, hrender⟩
    · obtain ⟨line, cause, hfault⟩ := Document.exists_of_read hread
      cases hfault
    · have hroom := Document.room_of_passLimit (by decide) hrender
      obtain ⟨-, s, henters, last, hbusy⟩ := Document.enters_of_render hroom hrender
      have hlen := Document.length_of_busy hbusy
      exact ⟨document, s, hread, henters, Nat.le_trans (Nat.le_add_left _ _) hlen⟩

/-- The bound is sharp: two ternaries, one in the place of the other's flag, take all ten
    characters in two passes. -/
theorem conditionals_delete_sharp :
    let context : Context := { flags := .ofList [("f".toList, true)] }
    let template := "\x7b\x7bf?f|\x7d?|\x7d".toList
    let config : Config := { maxPasses := 1 }
    evaluate context .lenient template = .ok ⟨"\x7bf?|\x7d".toList, 1⟩ ∧
    ("\x7bf?|\x7d".toList.Sublist template ∧ 5 + 5 * 1 ≤ template.length) ∧
    render template context config = .error (.passLimit .conditional 1) ∧
    (∃ document s, Document.read template config = .ok document ∧
      document.injected context config = .ok s ∧ 5 * (1 + 1) ≤ s.length) ∧
    template.length = 5 * (1 + 1) ∧
    ∃ t, Document.evaluated context {} template = .ok t := by
  intro context template config
  have hpass : evaluate context .lenient template = .ok ⟨"\x7bf?|\x7d".toList, 1⟩ := by
    decide +kernel
  have hcut : render template context config = .error (.passLimit .conditional 1) := by
    decide +kernel
  refine ⟨hpass, conditionals_delete.1 context .lenient template _ hpass, hcut,
    conditionals_delete.2.2 template context config 1 hcut, rfl, ?_⟩
  rcases conditionals_delete.2.1 context {} template (by decide) (by decide) with hok | ⟨hstrict, -⟩
  · exact hok
  · cases hstrict

end StoryTemplate
