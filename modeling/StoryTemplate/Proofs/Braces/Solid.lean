import Mathlib.Data.List.Forall2
import StoryTemplate.Proofs.Braces.Locality
import StoryTemplate.Proofs.Source.Views
import StoryTemplate.Text.Split

/-! # Solid texts — all separators are inside of groups

    A span is divided at the separators outside its groups.  A text that has none
    of those is not divided, and so texts of the kind that are joined by the
    separator are what a span is divided into.

    Main fact: `Span.Shows.parts_joinWith`. -/

namespace StoryTemplate

/-- The text is made of groups and of characters that are neither braces nor the
    separator. -/
inductive Solid (sep : Char) : Text → Prop
  | nil : Solid sep []
  | char {c : Char} {r : Text} (plain : NoBrace c) (other : c ≠ sep) (rest : Solid sep r) :
      Solid sep (c :: r)
  | group {body r : Text} (inside : Balanced body) (rest : Solid sep r) :
      Solid sep ('\x7b' :: (body ++ '\x7d' :: r))

namespace Solid

variable {sep : Char} {s t : Text}

theorem append (hs : Solid sep s) (ht : Solid sep t) : Solid sep (s ++ t) := by
  induction hs with
  | nil => exact ht
  | char plain other rest ih => exact .char plain other ih
  | @group body r inside rest ih =>
      have hshape : '\x7b' :: (body ++ '\x7d' :: r) ++ t = '\x7b' :: (body ++ '\x7d' :: (r ++ t)) := by
        simp
      rw [hshape]
      exact .group inside ih

theorem of_forall (h : ∀ c ∈ s, NoBrace c ∧ c ≠ sep) : Solid sep s := by
  induction s with
  | nil => exact .nil
  | cons c r ih =>
      obtain ⟨⟨hplain, hother⟩, hr⟩ := List.forall_mem_cons.1 h
      exact .char hplain hother (ih hr)

/-- What comes after characters that are no braces in a solid text is solid. -/
theorem of_append_right (h : Solid sep (s ++ t)) (hs : ∀ c ∈ s, NoBrace c) : Solid sep t := by
  induction s with
  | nil => exact h
  | cons c r ih =>
      obtain ⟨hc, hr⟩ := List.forall_mem_cons.1 hs
      rw [List.cons_append] at h
      generalize hrest : r ++ t = rest at h
      cases h with
      | char plain other solid => exact ih (hrest ▸ solid) hr
      | group inside solid => exact absurd rfl hc.1

/-- The braces of a solid text pair among themselves. -/
theorem balanced (h : Solid sep s) : Balanced s := by
  induction h with
  | nil => exact balanced_nil
  | @char c r plain other rest ih =>
      have hc : Balanced [c] := balanced_of_noBrace (by simpa using plain)
      exact hc.append ih
  | @group body r inside rest ih =>
      have hgroup := inside.group.append ih
      rwa [List.cons_append, List.append_assoc] at hgroup

end Solid

namespace Span

variable {src : Source} {sep : Char} {s : Span} {a b : Text} {start stop pos : Nat}

/-- At a character that is no opening brace no group opens. -/
theorem Shows.close_head {c : Char} (h : (Span.mk pos stop).Shows src (c :: a))
    (hc : c ≠ '\x7b') : (BraceMap.ofText src.toList).close pos = none := by
  cases hclose : (BraceMap.ofText src.toList).close pos with
  | none => rfl
  | some close =>
      have hopen := BraceMap.getElem?_of_close hclose
      rw [Array.getElem?_toList, h.head, Option.some.injEq] at hopen
      exact absurd hopen hc

/-- The group at the beginning of a span. -/
theorem Shows.close_group {body : Text} (hbody : Balanced body)
    (h : (Span.mk pos stop).Shows src ('\x7b' :: (body ++ '\x7d' :: a))) :
    (BraceMap.ofText src.toList).close pos = some (pos + 1 + body.length) := by
  obtain ⟨before, after, heq, rfl, -⟩ := h
  have hshape : src.toList = before ++ '\x7b' :: (body ++ '\x7d' :: (a ++ after)) := by
    rw [heq]
    simp
  rw [hshape]
  exact BraceMap.close_group before hbody (a ++ after)

/-- Nothing ends in a solid text. -/
theorem partsFrom_solid (ha : Solid sep a) (h : (Span.mk pos stop).Shows src (a ++ b)) :
    partsFrom src (.ofText src.toList) sep stop start pos =
      partsFrom src (.ofText src.toList) sep stop start (pos + a.length) := by
  induction ha generalizing pos with
  | nil => rfl
  | @char c r plain other rest ih =>
      have hlen := h.stop_eq
      simp only [List.cons_append, List.length_cons] at hlen
      have hsep : src.isAt sep pos = false := by
        have hhead : src[pos]? = some c := h.head
        rw [Source.isAt, hhead]
        simpa using other
      rw [List.length_cons, ← Nat.add_assoc, Nat.add_right_comm, ← ih h.tail, partsFrom,
        if_pos (by omega), hsep]
      split
      · rename_i close hclose
        rw [h.close_head plain.1] at hclose
        exact nomatch hclose
      · rfl
  | @group body r inside rest ih =>
      have hshape : '\x7b' :: (body ++ '\x7d' :: r) ++ b = '\x7b' :: (body ++ '\x7d' :: (r ++ b)) := by
        simp
      rw [hshape] at h
      have hlen := h.stop_eq
      simp only [List.length_cons, List.length_append] at hlen
      have hclose := h.close_group inside
      have hrest : (Span.mk (pos + 1 + body.length + 1) stop).Shows src (r ++ b) :=
        h.tail.right.tail
      rw [partsFrom, if_pos (by omega)]
      split
      · rename_i close hfilter
        rw [hclose, Option.filter_some_pos (by simp only [decide_eq_true_eq]; omega),
          Option.some.injEq] at hfilter
        rw [← hfilter, ih hrest, List.length_cons, List.length_append, List.length_cons]
        congr 1
        omega
      · rename_i hfilter
        rw [hclose, Option.filter_some_pos (by simp only [decide_eq_true_eq]; omega)] at hfilter
        exact nomatch hfilter

/-- A solid text is one part. -/
theorem Shows.parts_solid (ha : Solid sep a) (h : s.Shows src a) :
    s.parts src (.ofText src.toList) sep = [s] := by
  have hwhole : (Span.mk s.start s.stop).Shows src (a ++ []) := by
    rw [List.append_nil]
    exact h
  rw [parts, partsFrom_solid ha hwhole, ← h.stop_eq, partsFrom, if_neg (Nat.lt_irrefl _)]

/-- A solid text in front of a separator is the first part. -/
theorem Shows.parts_cons (hsep : NoBrace sep) (ha : Solid sep a)
    (h : s.Shows src (a ++ sep :: b)) : s.parts src (.ofText src.toList) sep =
      ⟨s.start, s.start + a.length⟩ ::
        (Span.mk (s.start + a.length + 1) s.stop).parts src (.ofText src.toList) sep := by
  have hright := h.right
  have hlen := hright.stop_eq
  simp only [List.length_cons] at hlen
  have hat : src.isAt sep (s.start + a.length) = true := by
    have hhead : src[s.start + a.length]? = some sep := hright.head
    rw [Source.isAt, hhead]
    exact beq_self_eq_true _
  rw [parts, partsFrom_solid ha h, partsFrom, if_pos (by omega), hat]
  split
  · rename_i close hclose
    rw [hright.close_head hsep.1] at hclose
    exact nomatch hclose
  · rfl

/-- The spans of texts that stand one after the other, with a separator between them. -/
def partsAt : Nat → List Text → List Span
  | _, [] => []
  | start, t :: texts => ⟨start, start + t.length⟩ :: partsAt (start + t.length + 1) texts

/-- Where the next text would begin. -/
def afterParts : Nat → List Text → Nat
  | start, [] => start
  | start, t :: texts => afterParts (start + t.length + 1) texts

theorem partsAt_append (start : Nat) (texts others : List Text) :
    partsAt start (texts ++ others) =
      partsAt start texts ++ partsAt (afterParts start texts) others := by
  induction texts generalizing start with
  | nil => rfl
  | cons t texts ih =>
      rw [List.cons_append, partsAt, partsAt, afterParts, ih, List.cons_append]

theorem afterParts_eq (sep : Char) (start : Nat) {texts : List Text} (hne : texts ≠ []) :
    afterParts start texts = start + (joinWith [sep] texts).length + 1 := by
  induction texts generalizing start with
  | nil => exact absurd rfl hne
  | cons a texts ih =>
      cases texts with
      | nil => rfl
      | cons b texts =>
          have hne : b :: texts ≠ [] := List.cons_ne_nil b texts
          rw [afterParts, ih _ hne, joinWith_cons hne, List.length_append, List.length_cons]
          omega

/-- Joined solid texts are divided again. -/
theorem Shows.parts_joinWith (hsep : NoBrace sep) {texts : List Text} (hne : texts ≠ [])
    (hsolid : ∀ t ∈ texts, Solid sep t) (h : s.Shows src (joinWith [sep] texts)) :
    s.parts src (.ofText src.toList) sep = partsAt s.start texts := by
  induction texts generalizing s with
  | nil => exact absurd rfl hne
  | cons a texts ih =>
      obtain ⟨ha, htexts⟩ := List.forall_mem_cons.1 hsolid
      cases texts with
      | nil =>
          have hone : s.Shows src a := h
          rw [hone.parts_solid ha, partsAt, partsAt, ← hone.stop_eq]
      | cons b texts =>
          have hne : b :: texts ≠ [] := List.cons_ne_nil b texts
          rw [joinWith_cons hne] at h
          rw [h.parts_cons hsep ha, partsAt, ih hne htexts h.right.tail]

/-- Each of the spans shows its text. -/
theorem Shows.partsAt {texts : List Text} (h : s.Shows src (joinWith [sep] texts)) :
    List.Forall₂ (fun part t => part.Shows src t) (partsAt s.start texts) texts := by
  induction texts generalizing s with
  | nil => exact .nil
  | cons a texts ih =>
      cases texts with
      | nil =>
          have hone : s.Shows src (a ++ []) := by
            rw [List.append_nil]
            exact h
          exact .cons hone.left .nil
      | cons b texts =>
          rw [joinWith_cons (List.cons_ne_nil b texts)] at h
          exact .cons h.left (ih h.right.tail)

/-- The first of the texts, and the last ones. -/
theorem forall₂_partsAt_append {R : Span → Text → Prop} {texts others : List Text}
    (h : List.Forall₂ R (Span.partsAt start (texts ++ others)) (texts ++ others)) :
    List.Forall₂ R (Span.partsAt start texts) texts ∧
      List.Forall₂ R (Span.partsAt (afterParts start texts) others) others := by
  induction texts generalizing start with
  | nil => exact ⟨.nil, h⟩
  | cons t texts ih =>
      rw [List.cons_append, Span.partsAt] at h
      cases h with
      | cons ht htexts =>
          obtain ⟨hfirst, hlast⟩ := ih htexts
          exact ⟨.cons ht hfirst, hlast⟩

theorem Shows.map_text {texts : List Text} (h : s.Shows src (joinWith [sep] texts)) :
    (Span.partsAt s.start texts).map (Span.text · src) = texts := by
  have hparts := h.partsAt
  generalize Span.partsAt s.start texts = parts at hparts
  clear h
  induction hparts with
  | nil => rfl
  | cons hpart _ ih => rw [List.map_cons, hpart.text_eq, ih]

end Span
end StoryTemplate
