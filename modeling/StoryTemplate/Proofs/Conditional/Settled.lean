import StoryTemplate.Proofs.Braces.Groups
import StoryTemplate.Proofs.Conditional.Recursion

/-! # Idle passes — texts without conditional expressions

    A pass over the conditionals of a text that processes nothing has looked at
    every opening brace of it, each with the pairs of the rest of the text only.
    That is enough: whether a group is an expression is decided inside it.

    Main facts: `content_of_shows` (a group is read as a text of its own),
    `lacks_iff` (a text lacks expressions if none can be read in it) and
    `evaluateNested_idle_iff` (a pass that processes nothing leaves the text alone,
    and there was nothing to process). -/

namespace StoryTemplate
namespace Conditional

/-- Reads the text between two braces. -/
def ofBody? (body : Text) : Option Conditional :=
  content? body.toArray (.ofText body) ⟨0, body.toArray.size⟩

/-- Whether the text between two braces is a conditional expression. -/
def IsBody (body : Text) : Prop := (ofBody? body).isSome = true

variable {src : Source} {s : Span} {t body : Text} {o c : Nat} {expression : Conditional}

/-- What stands between two braces is read as a text of its own. -/
theorem content_of_shows (h : s.Shows src body) :
    content? src (.ofText src.toList) s = (ofBody? body).map (shift s.start) := by
  have hspan : s = (Span.mk 0 body.toArray.size).shift s.start := by
    have hstop := h.stop_eq
    obtain ⟨start, stop⟩ := s
    rw [Span.shift, Span.mk.injEq, List.size_toArray]
    exact ⟨(Nat.zero_add start).symm, hstop.trans (Nat.add_comm _ _)⟩
  have hshift := content_shift h.window (Span.Shows.whole body)
  rwa [← hspan] at hshift

/-- An expression is a group of a certain form. -/
theorem parse_group (before : Text) (hbody : Balanced body) (after : Text) :
    parse? (before ++ '\x7b' :: (body ++ '\x7d' :: after)).toArray
        (.ofText (before ++ '\x7b' :: (body ++ '\x7d' :: after))) before.length =
      (ofBody? body).map fun expression =>
        (expression.shift (before.length + 1), before.length + 1 + body.length) := by
  have hshow := Span.Shows.group before body after
  rw [parse_eq, BraceMap.readGroup, BraceMap.close_group before hbody after, Option.bind_some,
    content_of_shows hshow, Option.map_map]
  rfl

/-- The text around an expression and in it. -/
theorem exists_of_parse (h : parse? t.toArray (.ofText t) o = some (expression, c)) :
    ∃ before body after, t = before ++ '\x7b' :: (body ++ '\x7d' :: after) ∧
      before.length = o ∧ c = o + 1 + body.length ∧ Balanced body ∧ IsBody body := by
  have hread := h
  rw [parse_eq, BraceMap.readGroup_eq_some] at h
  obtain ⟨before, body, after, rfl, hbody, rfl, rfl⟩ := BraceMap.close_ofText_iff.1 h.1
  refine ⟨before, body, after, rfl, rfl, rfl, hbody, ?_⟩
  rw [parse_group before hbody after, Option.map_eq_some_iff] at hread
  obtain ⟨expression', hsome, -⟩ := hread
  rw [IsBody, hsome]
  rfl

/-- A text has no expression exactly if none can be read at any position. -/
theorem lacks_iff : Lacks IsBody t ↔ ∀ o, parse? t.toArray (.ofText t) o = none := by
  constructor
  · intro h o
    cases hparse : parse? t.toArray (.ofText t) o with
    | none => rfl
    | some found =>
        obtain ⟨before, body, after, heq, -, -, hbody, hread⟩ := exists_of_parse hparse
        exact absurd hread (h before body after heq hbody)
  · rintro h before body after rfl hbody hread
    have hnone := h before.length
    rw [parse_group before hbody after, Option.map_eq_none_iff] at hnone
    rw [IsBody, hnone] at hread
    exact nomatch hread

end Conditional

open Conditional

variable {context : Context} {policy : VariablePolicy} {s t : Text} {p : Text → Prop}

/-! ## The first brace -/

/-- Text without an opening brace is copied. -/
theorem evaluateNested_text (h : ∀ c ∈ s, c ≠ '\x7b') :
    evaluateNested context policy s = .ok ⟨s, 0⟩ := by
  refine evaluateNested_plain ?_
  rw [firstOpen, List.takeWhile_eq_self_iff.2 fun c hc => by simpa using h c hc]
  exact Nat.lt_irrefl _

/-- A brace that opens no expression is copied. -/
theorem evaluateNested_open {before rest : Text} (hbefore : ∀ c ∈ before, c ≠ '\x7b')
    (hnone : ∀ body after, rest = body ++ '\x7d' :: after → Balanced body → ¬ IsBody body) :
    evaluateNested context policy (before ++ '\x7b' :: rest) =
      (evaluateNested context policy rest).map (.copyBefore (before ++ ['\x7b'])) := by
  have hparse : parse? (before ++ '\x7b' :: rest).toArray (.ofText (before ++ '\x7b' :: rest))
      (firstOpen (before ++ '\x7b' :: rest)) = none := by
    rw [firstOpen_eq hbefore]
    cases hread : parse? _ _ before.length with
    | none => rfl
    | some found =>
        obtain ⟨before', body, after, heq, hlen, -, hbody, hexpression⟩ := exists_of_parse hread
        obtain ⟨-, hrest⟩ := List.append_inj heq hlen.symm
        exact absurd hexpression (hnone body after (List.cons.inj hrest).2 hbody)
  have hshape : before ++ '\x7b' :: rest = before ++ ['\x7b'] ++ rest := by simp
  have hlen : before.length + 1 = (before ++ ['\x7b']).length := by simp
  rw [evaluateNested_literal (firstOpen_lt hbefore) hparse, firstOpen_eq hbefore, hshape, hlen,
    List.drop_left, List.take_left]

/-- An expression is replaced by the chosen branch, read as a text of its own, and the
    rest is read as a text of its own. -/
theorem evaluateNested_group {before body after : Text} (hbefore : ∀ c ∈ before, c ≠ '\x7b')
    (hbody : Balanced body) {expression : Conditional} (hread : ofBody? body = some expression) :
    evaluateNested context policy (before ++ '\x7b' :: (body ++ '\x7d' :: after)) =
      (expression.choose context policy).bind fun branch =>
        (evaluateNested context policy (branch.text body.toArray)).bind fun inner =>
          (evaluateNested context policy after).map fun rest =>
            .append (.copyBefore before ⟨inner.text, inner.processed + 1⟩) rest := by
  have hlt : firstOpen (before ++ '\x7b' :: (body ++ '\x7d' :: after)) <
      (before ++ '\x7b' :: (body ++ '\x7d' :: after)).length := firstOpen_lt hbefore
  have hparse : parse? (before ++ '\x7b' :: (body ++ '\x7d' :: after)).toArray
      (.ofText (before ++ '\x7b' :: (body ++ '\x7d' :: after)))
      (firstOpen (before ++ '\x7b' :: (body ++ '\x7d' :: after))) =
        some (expression.shift (before.length + 1), before.length + 1 + body.length) := by
    rw [firstOpen_eq hbefore, parse_group before hbody after, hread]
    rfl
  have hchoose := choose_shift (before.length + 1) expression context policy
  cases hchosen : expression.choose context policy with
  | error fault =>
      rw [hchosen] at hchoose
      exact evaluateNested_fault hlt hparse hchoose
  | ok branch =>
      rw [hchosen] at hchoose
      have hintact := content_intact (.ofText body) hread branch (mem_branches_of_choose hchosen)
      have hshow := Span.Shows.group before body after
      have htext := hshow.window.text_shift hintact.shows_text
      have hshape : before ++ '\x7b' :: (body ++ '\x7d' :: after) =
          before ++ '\x7b' :: (body ++ ['\x7d']) ++ after := by simp
      have hdrop : (before ++ '\x7b' :: (body ++ '\x7d' :: after)).drop
          (before.length + 1 + body.length + 1) = after := by
        rw [hshape]
        exact List.drop_left' (by simp; omega)
      rw [evaluateNested_branch hlt hparse hchoose, htext, hdrop, firstOpen_eq hbefore,
        List.take_left]
      rfl

/-! ## From brace to brace -/

/-- Induction on a text from one opening brace to the next: past a brace that opens no
    expression over the rest, and past an expression over its branches and the rest. -/
theorem brace_induction {motive : Text → Prop}
    (text : ∀ s : Text, (∀ c ∈ s, c ≠ '\x7b') → motive s)
    (literal : ∀ before rest : Text, (∀ c ∈ before, c ≠ '\x7b') →
      (∀ body after, rest = body ++ '\x7d' :: after → Balanced body → ¬ IsBody body) →
      motive rest → motive (before ++ '\x7b' :: rest))
    (group : ∀ (before body after : Text) (expression : Conditional),
      (∀ c ∈ before, c ≠ '\x7b') → Balanced body → ofBody? body = some expression →
      (∀ branch ∈ expression.branches, motive (branch.text body.toArray)) → motive after →
      motive (before ++ '\x7b' :: (body ++ '\x7d' :: after)))
    (s : Text) : motive s := by
  induction hn : s.length using Nat.strongRecOn generalizing s with
  | ind n ih =>
      subst hn
      rcases firstOpen_cases s with hnone | ⟨before, rest, rfl, hbefore⟩
      · exact text s hnone
      · by_cases hgroup : ∃ body after, rest = body ++ '\x7d' :: after ∧ Balanced body ∧ IsBody body
        · obtain ⟨body, after, rfl, hbody, hread⟩ := hgroup
          obtain ⟨expression, hexpression⟩ := Option.isSome_iff_exists.1 hread
          have hlen : (before ++ '\x7b' :: (body ++ '\x7d' :: after)).length =
              before.length + body.length + after.length + 2 := by
            simp only [List.length_append, List.length_cons]
            omega
          refine group before body after expression hbefore hbody hexpression
            (fun branch _ => ih _ ?_ _ rfl) (ih _ (by omega) after rfl)
          have hshort : (branch.text body.toArray).length ≤ body.length := by
            rw [Span.text, Array.length_toList, Array.size_extract, List.size_toArray]
            omega
          omega
        · refine literal before rest hbefore (fun body after heq hbody hread => ?_) (ih _ ?_ rest rfl)
          · exact hgroup ⟨body, after, heq, hbody, hread⟩
          · rw [List.length_append, List.length_cons]
            omega

/-- Text without an opening brace is copied, whatever text follows. -/
theorem evaluateNested_text_append (h : ∀ c ∈ s, c ≠ '\x7b') (t : Text) :
    evaluateNested context policy (s ++ t) =
      (evaluateNested context policy t).map (.append ⟨s, 0⟩) := by
  induction t using brace_induction with
  | text t hnone =>
      rw [evaluateNested_text hnone, evaluateNested_text (List.forall_mem_append.2 ⟨h, hnone⟩)]
      rfl
  | literal before rest hbefore hnone ih =>
      rw [← List.append_assoc, evaluateNested_open hbefore hnone,
        evaluateNested_open (List.forall_mem_append.2 ⟨h, hbefore⟩) hnone]
      cases evaluateNested context policy rest with
      | error fault => rfl
      | ok p => simp [Except.map, Pass.copyBefore, Pass.append]
  | group before body after expression hbefore hbody hread ihb ihr =>
      rw [← List.append_assoc, evaluateNested_group hbefore hbody hread,
        evaluateNested_group (List.forall_mem_append.2 ⟨h, hbefore⟩) hbody hread]
      cases expression.choose context policy with
      | error fault => rfl
      | ok branch =>
          dsimp only [Except.bind]
          cases evaluateNested context policy (branch.text body.toArray) with
          | error fault => rfl
          | ok inner =>
              cases evaluateNested context policy after with
              | error fault => rfl
              | ok rest => simp [Except.map, Pass.copyBefore, Pass.append]

/-! ## Idle passes -/

/-- Text before a brace adds no group. -/
theorem lacks_open {before rest : Text} (hbefore : ∀ c ∈ before, c ≠ '\x7b')
    (hnone : ∀ body after, rest = body ++ '\x7d' :: after → Balanced body → ¬ p body)
    (hrest : Lacks p rest) : Lacks p (before ++ '\x7b' :: rest) := by
  intro b body a heq hbody hp
  rcases Nat.lt_trichotomy b.length before.length with hlt | heq' | hlt
  · -- The brace would be one of the text before the first one.
    have hget := congrArg (·[b.length]?) heq
    simp only [List.getElem?_append_left hlt, List.getElem?_append_right (Nat.le_refl _),
      Nat.sub_self, List.getElem?_cons_zero] at hget
    exact hbefore _ (List.mem_of_getElem? hget) rfl
  · obtain ⟨-, hgroup⟩ := List.append_inj heq heq'.symm
    exact hnone body a (List.cons.inj hgroup).2 hbody hp
  · have hshape : before ++ '\x7b' :: rest = before ++ ['\x7b'] ++ rest := by simp
    rw [hshape] at heq
    obtain ⟨w, -, hw⟩ := exists_of_append_eq heq (by rw [List.length_append]; exact hlt)
    exact hrest w body a hw hbody hp

/-- A pass that processes nothing leaves the text as it is, and it is one of those that
    have no expressions. -/
theorem evaluateNested_idle_iff :
    evaluateNested context policy s = .ok ⟨t, 0⟩ ↔ t = s ∧ Lacks IsBody s := by
  induction s using brace_induction generalizing t with
  | text s hnone =>
      rw [evaluateNested_text hnone, Except.ok.injEq, Pass.mk.injEq]
      refine ⟨fun h => ⟨h.1.symm, ?_⟩, fun h => ⟨h.1.symm, rfl⟩⟩
      rintro before body after rfl - -
      exact hnone '\x7b' (by simp) rfl
  | literal before rest hbefore hnone ih =>
      rw [evaluateNested_open hbefore hnone, map_eq_ok_iff]
      constructor
      · rintro ⟨⟨text, processed⟩, hrest, hcopied⟩
        rw [Pass.copyBefore, Pass.mk.injEq] at hcopied
        obtain ⟨rfl, rfl⟩ := hcopied
        obtain ⟨rfl, hlacks⟩ := ih.1 hrest
        exact ⟨by simp, lacks_open hbefore hnone hlacks⟩
      · rintro ⟨rfl, hlacks⟩
        have hrest := ih.2 ⟨rfl, hlacks.of_infix ⟨before ++ ['\x7b'], [], by simp⟩⟩
        refine ⟨_, hrest, ?_⟩
        rw [Pass.copyBefore]
        simp
  | group before body after expression hbefore hbody hread ihb ihr =>
      constructor
      · intro h
        rw [evaluateNested_group hbefore hbody hread] at h
        obtain ⟨branch, -, h⟩ := bind_eq_ok_iff.1 h
        obtain ⟨inner, -, h⟩ := bind_eq_ok_iff.1 h
        obtain ⟨rest, -, h⟩ := map_eq_ok_iff.1 h
        have hcount : inner.processed + 1 + rest.processed = 0 := congrArg Pass.processed h
        omega
      · rintro ⟨-, hlacks⟩
        have hbodyOf : IsBody body := by
          rw [IsBody, hread]
          rfl
        exact absurd hbodyOf (hlacks before body after rfl hbody)

end StoryTemplate
