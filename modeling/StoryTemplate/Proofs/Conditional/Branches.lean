import StoryTemplate.Proofs.Conditional.Locality
import StoryTemplate.Proofs.Source.Intact

/-! # Branches of conditionals — they are intact

    Whatever branch of an expression is chosen, the groups that begin in it also
    end in it, so the pass may enter it with the pairs of the whole text.

    Main fact: `branch_intact`. -/

namespace StoryTemplate
namespace Conditional

variable {src : Source} {s : Span} {expression : Conditional}

theorem ternary_intact {flag : Text} (hs : s.Intact src)
    (h : ternary? src (.ofText src.toList) flag s = some expression) :
    ∀ branch ∈ expression.branches, branch.Intact src := by
  rw [ternary?] at h
  rcases hparts : s.parts src (.ofText src.toList) '|' with _ | ⟨first, _ | ⟨second, others⟩⟩
  · rw [hparts] at h
    cases h
  · rw [hparts] at h
    cases h
  · have hmem : (second :: others).getLast (List.cons_ne_nil _ _) ∈
        s.parts src (.ofText src.toList) '|' := by
      rw [hparts]
      exact .tail _ (List.getLast_mem _)
    have hlt := Span.lt_getLast_parts hparts
    rw [hparts] at h
    simp only [List.getLast_cons (List.cons_ne_nil second others), Option.some.injEq] at h
    subst h
    intro branch hbranch
    rcases List.mem_cons.1 hbranch with rfl | hbranch
    · exact (hs.before_part hmem hlt).branch
    · obtain rfl := List.mem_singleton.1 hbranch
      exact (hs.part hmem).branch

theorem arm_intact {arm : Text × Span} (hs : s.Intact src) (h : arm? src s = some arm) :
    arm.2.Intact src := by
  rw [arm?] at h
  by_cases hcolon : s.startsWith src ':' = true
  · rw [if_pos hcolon] at h
    by_cases hempty : ((Span.mk (s.start + 1) s.stop).word src).isEmpty = true
    · rw [if_pos hempty] at h
      cases h
    · rw [if_neg hempty, Option.some.injEq] at h
      subst h
      have htail := hs.shows_text.tail_of_startsWith hcolon
      have hstart := Span.start_le_word_stop (Span.mk (s.start + 1) s.stop) src
      exact (hs.suffix (Nat.le_trans (Nat.le_succ _) hstart) htail.afterWord.start_le).branch
  · rw [if_neg hcolon] at h
    cases h

theorem armsAfter_intact {name value : Text} (hs : s.Intact src)
    (h : armsAfter? src (.ofText src.toList) name value s = some expression) :
    ∀ branch ∈ expression.branches, branch.Intact src := by
  rw [armsAfter?] at h
  rcases hparts : s.parts src (.ofText src.toList) '|' with _ | ⟨primary, _ | ⟨second, others⟩⟩
  · rw [hparts] at h
    cases h
  · rw [hparts] at h
    cases h
  · have hpart : ∀ part ∈ primary :: second :: others, part.Intact src :=
      fun part hmem => hs.part (hparts ▸ hmem)
    rw [hparts] at h
    dsimp only at h
    by_cases harm : (arm? src ((second :: others).getLast (List.cons_ne_nil _ _))).isSome = true
    · rw [if_pos harm] at h
      cases h
    · rw [if_neg harm] at h
      obtain ⟨alternatives, halternatives, rfl⟩ := Option.map_eq_some_iff.1 h
      intro branch hbranch
      rcases List.mem_cons.1 hbranch with rfl | hbranch
      · exact (hpart _ (.tail _ (List.getLast_mem _))).branch
      · obtain ⟨arm, harm, rfl⟩ := List.mem_map.1 hbranch
        rcases List.mem_cons.1 harm with rfl | harm
        · exact (hpart _ (.head _)).branch
        · obtain ⟨part, hmem, hread⟩ := mem_mapM_some halternatives arm harm
          exact arm_intact (hpart _ (.tail _ ((List.dropLast_sublist _).mem hmem))) hread

theorem matching_intact {name : Text} (hs : s.Intact src)
    (h : matching? src (.ofText src.toList) name s = some expression) :
    ∀ branch ∈ expression.branches, branch.Intact src := by
  rw [matching_eq] at h
  by_cases hg : ((s.word src).isEmpty || (Span.mk (s.word src).stop s.stop).isEmpty ||
      !src.holdsAt isBlank (s.word src).stop) = true
  · rw [if_pos hg] at h
    exact nomatch h
  · rw [if_neg hg] at h
    exact armsAfter_intact
      (hs.suffix (s.start_le_word_stop src) hs.shows_text.afterWord.start_le) h

theorem content_intact (hs : s.Intact src)
    (h : content? src (.ofText src.toList) s = some expression) :
    ∀ branch ∈ expression.branches, branch.Intact src := by
  have hname := hs.skipBlank.shows_text.afterWord
  have hrest : (Span.mk ((s.skipBlank src).word src).stop s.stop).Intact src :=
    hs.skipBlank.suffix (Span.start_le_word_stop _ src) hname.start_le
  rw [content?] at h
  dsimp only at h
  generalize (s.skipBlank src).word src = name at h hrest
  by_cases hempty : name.isEmpty = true
  · rw [if_pos hempty] at h
    cases h
  · rw [if_neg hempty] at h
    by_cases hmark : ((Span.mk name.stop s.stop).skipBlank src).startsWith src '?' = true
    · rw [if_pos hmark] at h
      have htail := hrest.skipBlank.shows_text.tail_of_startsWith hmark
      exact ternary_intact (hrest.skipBlank.suffix (Nat.le_succ _) htail.start_le) h
    · rw [if_neg hmark] at h
      by_cases hcolon : (Span.mk name.stop s.stop).startsWith src ':' = true
      · rw [if_pos hcolon] at h
        have htail := hrest.shows_text.tail_of_startsWith hcolon
        exact matching_intact (hrest.suffix (Nat.le_succ _) htail.start_le) h
      · rw [if_neg hcolon] at h
        cases h

/-- Every branch of an expression is intact. -/
theorem branch_intact {opened close : Nat}
    (h : parse? src (.ofText src.toList) opened = some (expression, close)) :
    ∀ branch ∈ expression.branches, branch.Intact src := by
  rw [parse_eq, BraceMap.readGroup_eq_some] at h
  exact content_intact (.inner h.1) h.2

/-- Every branch lies between the braces: it is one of the text between them. -/
theorem stop_le_of_parse {opened close : Nat}
    (h : parse? src (.ofText src.toList) opened = some (expression, close)) :
    ∀ branch ∈ expression.branches, branch.stop ≤ close := by
  rw [parse_eq, BraceMap.readGroup_eq_some] at h
  obtain ⟨hclose, hread⟩ := h
  have hshow := (Span.Intact.inner hclose).shows_text
  generalize (Span.mk (opened + 1) close).text src = t at hshow
  have hstop := hshow.stop_eq
  have hwhole : Span.mk (opened + 1) close = (Span.mk 0 t.toArray.size).shift (opened + 1) := by
    rw [Span.shift, Span.mk.injEq, List.size_toArray]
    exact ⟨(Nat.zero_add _).symm, hstop.trans (Nat.add_comm _ _)⟩
  rw [hwhole, content_shift hshow.window (.whole t)] at hread
  obtain ⟨inner, hinner, rfl⟩ := Option.map_eq_some_iff.1 hread
  intro branch hbranch
  rw [shift_eq_mapSpans, branches_mapSpans] at hbranch
  obtain ⟨part, hpart, rfl⟩ := List.mem_map.1 hbranch
  have hsize := (content_intact (.ofText t) hinner part hpart).size
  rw [List.size_toArray] at hsize
  simp only [Span.shift_stop] at hstop ⊢
  omega

/-- An expression that begins in an intact span is read as one of its text. -/
theorem parse_intact {t : Text} (hs : s.Intact src) (hshow : s.Shows src t) {o : Nat}
    (ho : o < t.length) : parse? src (.ofText src.toList) (o + s.start) =
      (parse? t.toArray (.ofText t) o).map fun found =>
        (found.1.shift s.start, found.2 + s.start) := by
  rw [parse_eq, parse_eq]
  exact hs.readGroup_shift hshow (content_shift hshow.window) ho

/-- An expression ends in the text. -/
theorem lt_length_of_parse {s : Text} {opened close : Nat}
    (h : parse? s.toArray (.ofText s) opened = some (expression, close)) : close < s.length := by
  rw [parse_eq, BraceMap.readGroup_eq_some] at h
  exact BraceMap.close_lt_length h.1

end Conditional
end StoryTemplate
