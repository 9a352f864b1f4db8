import StoryTemplate.Conditional.Expression
import StoryTemplate.Proofs.Braces.Division

/-! # Forms — conditional expressions in their parts

    Between its braces a ternary is written `f ? T | F`, with white space or none in
    front of the flag and of the question mark, and a matching `v:x P |:y Q | F`, with
    white space or none in front of the variable.  A word ends where its characters
    do.  Bars in groups belong to the group; of the others only the last one divides a
    ternary, and all of them divide a matching.

    A form is such a text in its parts.  It carries the proofs of what is asked of
    them, so a form is always well written.

    Main facts: `Form.expression` and `Form.Says` (what a form stands for) and
    `Form.text_injective` (no text has two forms). -/

namespace StoryTemplate

/-! ## Words -/

/-- A text of word characters, at least one. -/
@[ext] structure Word where
  text : Text
  ne_nil : text ≠ []
  all_isWord : ∀ c ∈ text, isWord c = true

namespace Word

variable {t : Text}

theorem noBrace (w : Word) : ∀ c ∈ w.text, NoBrace c :=
  fun c hc => noBrace_of_isWord (w.all_isWord c hc)

/-- A word has no character that is none of a word. -/
theorem ne_of_not_isWord (w : Word) {d : Char} (hd : isWord d = false) : ∀ c ∈ w.text, c ≠ d := by
  rintro c hc rfl
  rw [w.all_isWord c hc] at hd
  exact nomatch hd

theorem solid (w : Word) : Solid '|' w.text :=
  .of_forall fun c hc => ⟨w.noBrace c hc, w.ne_of_not_isWord (by decide) c hc⟩

theorem takeWhile (w : Word) (ht : ∀ c ∈ t.head?, isWord c = false) :
    (w.text ++ t).takeWhile isWord = w.text :=
  takeWhile_append_stop w.all_isWord ht

/-- A word begins with no white space. -/
theorem startsWith_isBlank (w : Word) (t : Text) : startsWith isBlank (w.text ++ t) = false := by
  obtain ⟨text, hne, hall⟩ := w
  obtain ⟨c, r, rfl⟩ := List.exists_cons_of_ne_nil hne
  exact not_isBlank_of_isWord (hall c (.head _))

/-- The word that a text begins with. -/
theorem exists_of_takeWhile (h : t.takeWhile isWord ≠ []) :
    ∃ w : Word, t = w.text ++ t.dropWhile isWord := by
  refine ⟨⟨t.takeWhile isWord, h, ?_⟩, List.takeWhile_append_dropWhile.symm⟩
  intro c hc
  exact List.mem_takeWhile_imp hc

end Word

theorem not_isWord_of_isBlank {c : Char} (h : isBlank c = true) : isWord c = false := by
  by_contra hword
  rw [Bool.not_eq_false] at hword
  rw [not_isBlank_of_isWord hword] at h
  cases h

/-- A word ends in front of white space and of a mark. -/
theorem head?_gap {gap : Text} {d : Char} (hgap : ∀ c ∈ gap, isBlank c = true)
    (hd : isWord d = false) (t : Text) : ∀ c ∈ (gap ++ d :: t).head?, isWord c = false := by
  cases gap with
  | nil =>
      rintro c ⟨⟩
      exact hd
  | cons b gap =>
      rintro c ⟨⟩
      exact not_isWord_of_isBlank (hgap b (.head _))

namespace Conditional

/-! ## Forms -/

/-- The text begins like an arm, with a colon and a word. -/
def OpensArm (t : Text) : Prop := ∃ c r, t = ':' :: c :: r ∧ isWord c = true

/-- What stands between the braces of a ternary. -/
@[ext] structure Ternary where
  lead : Text
  flag : Word
  gap : Text
  whenTrue : Text
  whenFalse : Text
  lead_blank : ∀ c ∈ lead, isBlank c = true
  gap_blank : ∀ c ∈ gap, isBlank c = true
  balanced : Balanced whenTrue
  solid : Solid '|' whenFalse

/-- An arm of a matching, without the bar in front of it. -/
@[ext] structure Arm where
  value : Word
  branch : Text
  solid : Solid '|' branch
  apart : startsWith isWord branch = false

def Arm.text (arm : Arm) : Text := ':' :: (arm.value.text ++ arm.branch)

/-- What stands between the braces of a matching. -/
@[ext] structure Matching where
  lead : Text
  name : Word
  value : Word
  primary : Text
  arms : List Arm
  fallback : Text
  lead_blank : ∀ c ∈ lead, isBlank c = true
  primary_solid : Solid '|' primary
  primary_blank : startsWith isBlank primary = true
  fallback_solid : Solid '|' fallback
  not_arm : ¬ OpensArm fallback

/-- What stands between the braces of a conditional expression. -/
inductive Form
  | ternary (parts : Ternary)
  | matching (parts : Matching)

def Ternary.text (f : Ternary) : Text :=
  f.lead ++ (f.flag.text ++ (f.gap ++ '?' :: (f.whenTrue ++ '|' :: f.whenFalse)))

/-- What the bars of a matching divide. -/
def Matching.divided (f : Matching) : List Text :=
  f.primary :: (f.arms.map Arm.text ++ [f.fallback])

def Matching.text (f : Matching) : Text :=
  f.lead ++ (f.name.text ++ ':' :: (f.value.text ++ joinWith ['|'] f.divided))

/-- The text of a form. -/
def Form.text : Form → Text
  | .ternary parts => parts.text
  | .matching parts => parts.text

/-! ## What a form says -/

/-- The branch of a text that begins at the position: white space in front and one space
    at the end are layout. -/
def branchAt (start : Nat) (t : Text) : Span :=
  ⟨start + (t.takeWhile isBlank).length,
    start + (t.takeWhile isBlank).length + (branchText t).length⟩

/-- The arms, the first of which begins at the position. -/
def armsAt : Nat → List Arm → List (Text × Span)
  | _, [] => []
  | start, arm :: arms =>
      (arm.value.text, branchAt (start + 1 + arm.value.text.length) arm.branch) ::
        armsAt (start + arm.text.length + 1) arms

/-- The expression of a ternary that begins at the position. -/
def Ternary.expression (f : Ternary) (start : Nat) : Conditional :=
  let body := start + f.lead.length + f.flag.text.length + f.gap.length + 1
  .ternary f.flag.text (branchAt body f.whenTrue)
    (branchAt (body + f.whenTrue.length + 1) f.whenFalse)

/-- The expression of a matching that begins at the position. -/
def Matching.expression (f : Matching) (start : Nat) : Conditional :=
  let body := start + f.lead.length + f.name.text.length + 1 + f.value.text.length
  let others := body + f.primary.length + 1
  .matching f.name.text ((f.value.text, branchAt body f.primary) :: armsAt others f.arms)
    (branchAt (Span.afterParts others (f.arms.map Arm.text)) f.fallback)

/-- The expression of a form that begins at the position. -/
def Form.expression (start : Nat) : Form → Conditional
  | .ternary parts => parts.expression start
  | .matching parts => parts.expression start

/-- The arms of a source, with their branches as texts. -/
def armTexts (src : Source) (arms : List (Text × Span)) : List (Text × Text) :=
  arms.map fun arm => (arm.1, arm.2.text src)

/-- The expression holds the words of the form, and its spans stand for the branches of the
    form without their layout. -/
def Form.Says (src : Source) : Form → Conditional → Prop
  | .ternary f, .ternary flag whenTrue whenFalse =>
      flag = f.flag.text ∧ whenTrue.text src = branchText f.whenTrue ∧
        whenFalse.text src = branchText f.whenFalse
  | .matching f, .matching name arms fallback =>
      name = f.name.text ∧
        armTexts src arms = (f.value.text, branchText f.primary) ::
          f.arms.map (fun arm => (arm.value.text, branchText arm.branch)) ∧
        fallback.text src = branchText f.fallback
  | _, _ => False

/-! ## The parts of a form -/

variable {t : Text}

theorem Arm.head?_branch (arm : Arm) : ∀ c ∈ arm.branch.head?, isWord c = false :=
  head?_of_startsWith arm.apart

theorem Arm.solid_text (arm : Arm) : Solid '|' arm.text := by
  have hcolon : Solid '|' [':'] := .char (by decide) (by decide) .nil
  exact hcolon.append (arm.value.solid.append arm.solid)

/-- What opens an arm is one, if its bars are in groups. -/
theorem exists_arm (ht : Solid '|' t) (h : OpensArm t) : ∃ arm : Arm, t = arm.text := by
  obtain ⟨c, r, rfl, hc⟩ := h
  have hne : (c :: r).takeWhile isWord ≠ [] := by
    rw [List.takeWhile_cons_of_pos hc]
    exact List.cons_ne_nil _ _
  obtain ⟨w, hw⟩ := Word.exists_of_takeWhile hne
  have hrest : Solid '|' (w.text ++ (c :: r).dropWhile isWord) := by
    rw [← hw]
    exact ht.of_append_right (s := [':']) (by simp; decide)
  refine ⟨⟨w, (c :: r).dropWhile isWord, hrest.of_append_right w.noBrace, ?_⟩, ?_⟩
  · cases hdrop : (c :: r).dropWhile isWord with
    | nil => rfl
    | cons d u => exact head?_dropWhile (c :: r) d (by rw [hdrop]; rfl)
  · exact congrArg (List.cons ':') hw

theorem Matching.solid_divided (f : Matching) : ∀ t ∈ f.divided, Solid '|' t := by
  intro t ht
  rcases List.mem_cons.1 ht with rfl | ht
  · exact f.primary_solid
  · rcases List.mem_append.1 ht with ht | ht
    · obtain ⟨arm, -, rfl⟩ := List.mem_map.1 ht
      exact arm.solid_text
    · obtain rfl := List.mem_singleton.1 ht
      exact f.fallback_solid

theorem Matching.startsWith_isBlank (f : Matching) :
    startsWith isBlank (joinWith ['|'] f.divided) = true := by
  have hblank := f.primary_blank
  rw [Matching.divided, joinWith_cons (by simp)]
  cases hprimary : f.primary with
  | nil =>
      rw [hprimary] at hblank
      cases hblank
  | cons c r =>
      rw [hprimary] at hblank
      exact hblank

theorem Matching.head?_divided (f : Matching) :
    ∀ c ∈ (joinWith ['|'] f.divided).head?, isWord c = false := by
  have hblank := f.startsWith_isBlank
  cases hdivided : joinWith ['|'] f.divided with
  | nil =>
      rw [hdivided] at hblank
      cases hblank
  | cons b t =>
      rw [hdivided] at hblank
      rintro c ⟨⟩
      exact not_isWord_of_isBlank hblank

/-! ## No text has two forms -/

theorem Arm.text_injective : Function.Injective Arm.text := by
  intro arm arm' h
  obtain ⟨-, hrest⟩ := List.cons.inj h
  obtain ⟨hvalue, hbranch⟩ := append_stop_inj arm.value.all_isWord arm'.value.all_isWord
    arm.head?_branch arm'.head?_branch hrest
  exact Arm.ext (Word.ext hvalue) hbranch

theorem Ternary.text_injective : Function.Injective Ternary.text := by
  intro f f' h
  obtain ⟨hlead, h⟩ := append_stop_inj f.lead_blank f'.lead_blank
    (head?_of_startsWith (f.flag.startsWith_isBlank _))
    (head?_of_startsWith (f'.flag.startsWith_isBlank _)) h
  obtain ⟨hflag, h⟩ := append_stop_inj f.flag.all_isWord f'.flag.all_isWord
    (head?_gap f.gap_blank (by decide) _) (head?_gap f'.gap_blank (by decide) _) h
  obtain ⟨hgap, h⟩ := append_stop_inj f.gap_blank f'.gap_blank
    (by rintro c ⟨⟩; decide) (by rintro c ⟨⟩; decide) h
  obtain ⟨-, h⟩ := List.cons.inj h
  obtain ⟨htrue, hfalse⟩ :=
    Balanced.append_solid_inj (by decide) f.balanced f'.balanced f.solid f'.solid h
  exact Ternary.ext hlead (Word.ext hflag) hgap htrue hfalse

theorem Matching.text_injective : Function.Injective Matching.text := by
  intro f f' h
  obtain ⟨hlead, h⟩ := append_stop_inj f.lead_blank f'.lead_blank
    (head?_of_startsWith (f.name.startsWith_isBlank _))
    (head?_of_startsWith (f'.name.startsWith_isBlank _)) h
  obtain ⟨hname, h⟩ := append_stop_inj f.name.all_isWord f'.name.all_isWord
    (by rintro c ⟨⟩; decide) (by rintro c ⟨⟩; decide) h
  obtain ⟨-, h⟩ := List.cons.inj h
  obtain ⟨hvalue, h⟩ := append_stop_inj f.value.all_isWord f'.value.all_isWord
    f.head?_divided f'.head?_divided h
  have hdivided := joinWith_inj (by decide) (List.cons_ne_nil _ _) (List.cons_ne_nil _ _)
    f.solid_divided f'.solid_divided h
  obtain ⟨hprimary, hrest⟩ := List.cons.inj hdivided
  obtain ⟨harms, hfallback⟩ := List.append_inj' hrest rfl
  exact Matching.ext hlead (Word.ext hname) (Word.ext hvalue) hprimary
    (Arm.text_injective.list_map harms) (List.cons.inj hfallback).1

/-- No text has two forms. -/
theorem Form.text_injective : Function.Injective Form.text := by
  -- A ternary and a matching differ in what comes after the first word.
  have apart : ∀ (f : Ternary) (g : Matching), f.text ≠ g.text := by
    intro f g h
    obtain ⟨-, h⟩ := append_stop_inj f.lead_blank g.lead_blank
      (head?_of_startsWith (f.flag.startsWith_isBlank _))
      (head?_of_startsWith (g.name.startsWith_isBlank _)) h
    obtain ⟨-, h⟩ := append_stop_inj f.flag.all_isWord g.name.all_isWord
      (head?_gap f.gap_blank (by decide) _) (by rintro c ⟨⟩; decide) h
    have hgap := f.gap_blank
    cases hcons : f.gap with
    | nil =>
        rw [hcons] at h
        exact absurd (List.cons.inj h).1 (by decide)
    | cons b gap =>
        rw [hcons] at h hgap
        have hcolon : isBlank ':' = true := (List.cons.inj h).1 ▸ hgap b (.head _)
        exact absurd hcolon (by decide)
  intro form form' h
  cases form with
  | ternary f =>
      cases form' with
      | ternary f' => exact congrArg Form.ternary (Ternary.text_injective h)
      | matching f' => exact absurd h (apart f f')
  | matching f =>
      cases form' with
      | ternary f' => exact absurd h.symm (apart f' f)
      | matching f' => exact congrArg Form.matching (Matching.text_injective h)

end Conditional
end StoryTemplate
