import StoryTemplate.Proofs.Conditional.Form
import StoryTemplate.Proofs.Conditional.Settled

/-! # The grammar of conditionals — an expression is read from its form

    Reading cuts a span at blanks, words and bars.  On a text that is a form the cuts
    fall between the parts of the form; and where the cuts are made the text is put
    together from parts that make up a form.

    Main facts: `content_of_form` (a form is read as what its parts say), `exists_form`
    (nothing else is read) and `parse_iff_form`, which says both of a text with braces. -/

namespace StoryTemplate

/-! ## Where the spans end -/

namespace Span.Shows

variable {src : Source} {s : Span} {t : Text}

theorem skipBlank_eq (h : s.Shows src t) :
    s.skipBlank src = ⟨s.start + (t.takeWhile isBlank).length, s.stop⟩ := by
  rw [Span.skipBlank, h.find_eq (not_holdsAt isBlank)]

theorem word_eq (h : s.Shows src t) :
    s.word src = ⟨s.start, s.start + (t.takeWhile isWord).length⟩ := by
  rw [Span.word, h.find_eq (not_holdsAt isWord)]

/-- The branch of a span. -/
theorem branch_eq (h : s.Shows src t) : s.branch src = Conditional.branchAt s.start t := by
  have hstop := h.branch.stop_eq
  have hstart : (s.branch src).start = s.start + (t.takeWhile isBlank).length := by
    rw [Span.branch, Span.dropSpace_start, h.skipBlank_eq]
  rw [hstart] at hstop
  rw [Conditional.branchAt, ← hstop, ← hstart]

end Span.Shows

namespace Conditional

variable {src : Source} {s : Span} {t rest lead : Text} {w : Word}

theorem not_isEmpty_of_shows (h : s.Shows src w.text) : ¬ s.isEmpty = true := by
  rw [h.isEmpty_eq, List.isEmpty_iff]
  exact w.ne_nil

/-! ## The first word -/

/-- After the first word a question mark or a colon decides what is read. -/
theorem content_eq (h : s.Shows src (lead ++ (w.text ++ rest)))
    (hlead : ∀ c ∈ lead, isBlank c = true) (hrest : ∀ c ∈ rest.head?, isWord c = false) :
    content? src (.ofText src.toList) s =
      if (trimStart rest).head? = some '?' then
        ternary? src (.ofText src.toList) w.text
          ⟨s.start + lead.length + w.text.length + (rest.takeWhile isBlank).length + 1, s.stop⟩
      else if rest.head? = some ':' then
        matching? src (.ofText src.toList) w.text
          ⟨s.start + lead.length + w.text.length + 1, s.stop⟩
      else none := by
  have hskip := h.skipBlank_eq
  rw [takeWhile_append_stop hlead (head?_of_startsWith (w.startsWith_isBlank rest))] at hskip
  have hinner : (Span.mk (s.start + lead.length) s.stop).Shows src (w.text ++ rest) := h.right
  have hword := hinner.word_eq
  rw [w.takeWhile hrest] at hword
  have hname : (Span.mk (s.start + lead.length) (s.start + lead.length + w.text.length)).Shows src
      w.text := hinner.left
  have hafter : (Span.mk (s.start + lead.length + w.text.length) s.stop).Shows src rest :=
    hinner.right
  rw [content?]
  dsimp only
  rw [hskip, hword]
  dsimp only
  rw [if_neg (not_isEmpty_of_shows hname), hname.text_eq, hafter.skipBlank.startsWith_eq,
    hafter.startsWith_eq, hafter.skipBlank_eq]
  simp only [beq_iff_eq]

/-- Without a word at its beginning a text is not read. -/
theorem content_of_no_word (h : s.Shows src t) (ht : (trimStart t).takeWhile isWord = []) :
    content? src (.ofText src.toList) s = none := by
  have hempty : ((s.skipBlank src).word src).isEmpty = true := by
    rw [h.skipBlank.word.isEmpty_eq, ht]
    rfl
  rw [content?]
  dsimp only
  rw [if_pos hempty]

/-! ## Between the bars -/

/-- A balanced text is the texts between its bars. -/
theorem exists_parts (h : s.Shows src t) (ht : Balanced t) :
    ∃ texts last, t = joinWith ['|'] (texts ++ [last]) ∧ (∀ u ∈ texts ++ [last], Solid '|' u) ∧
      s.parts src (.ofText src.toList) '|' = Span.partsAt s.start (texts ++ [last]) := by
  obtain ⟨divided, hne, hsolid, rfl⟩ := ht.exists_joinWith '|'
  have hparts := h.parts_joinWith (by decide) hne hsolid
  rcases List.eq_nil_or_concat divided with rfl | ⟨texts, last, rfl⟩
  · exact absurd rfl hne
  · rw [List.concat_eq_append] at hsolid hparts ⊢
    exact ⟨texts, last, rfl, hsolid, hparts⟩

/-- The last bar divides a ternary. -/
theorem ternary_of_parts {flag : Text} {parts : List Span} {last : Span} (hne : parts ≠ [])
    (h : s.parts src (.ofText src.toList) '|' = parts ++ [last]) :
    ternary? src (.ofText src.toList) flag s =
      some (.ternary flag ((Span.mk s.start (last.start - 1)).branch src) (last.branch src)) := by
  obtain ⟨first, others, rfl⟩ := List.exists_cons_of_ne_nil hne
  rw [ternary?, h, List.cons_append]
  rcases hcons : others ++ [last] with _ | ⟨second, rest⟩
  · exact absurd hcons (by simp)
  · have hlast : (first :: second :: rest).getLast (List.cons_ne_nil _ _) = last := by
      simp only [← hcons, ← List.cons_append, List.getLast_append_singleton]
    dsimp only
    rw [hlast]

theorem ternary_of_part {flag : Text} {part : Span}
    (h : s.parts src (.ofText src.toList) '|' = [part]) :
    ternary? src (.ofText src.toList) flag s = none := by
  rw [ternary?, h]

/-- A ternary is read from two branches. -/
theorem ternary_of_shows {whenTrue whenFalse : Text} (flag : Text)
    (h : s.Shows src (whenTrue ++ '|' :: whenFalse)) (htrue : Balanced whenTrue)
    (hfalse : Solid '|' whenFalse) :
    ternary? src (.ofText src.toList) flag s = some (.ternary flag (branchAt s.start whenTrue)
      (branchAt (s.start + whenTrue.length + 1) whenFalse)) := by
  have hleft := h.left
  have hright := h.right.tail
  have hstop := hright.stop_eq
  obtain ⟨texts, hne, hsolid, rfl⟩ := htrue.exists_joinWith '|'
  rw [← joinWith_concat hne whenFalse] at h
  have hparts := h.parts_joinWith (by decide) (List.append_ne_nil_of_left_ne_nil hne _)
    (List.forall_mem_append.2 ⟨hsolid, List.forall_mem_singleton.2 hfalse⟩)
  rw [Span.partsAt_append, Span.partsAt, Span.partsAt, Span.afterParts_eq '|' s.start hne,
    ← hstop] at hparts
  have hnone : Span.partsAt s.start texts ≠ [] := by
    obtain ⟨first, others, rfl⟩ := List.exists_cons_of_ne_nil hne
    exact List.cons_ne_nil _ _
  rw [ternary_of_parts hnone hparts, Nat.add_sub_cancel, hleft.branch_eq, hright.branch_eq]

/-- And from nothing else. -/
theorem exists_of_ternary {flag : Text} {expression : Conditional} (h : s.Shows src t)
    (ht : Balanced t) (hread : ternary? src (.ofText src.toList) flag s = some expression) :
    ∃ whenTrue whenFalse, t = whenTrue ++ '|' :: whenFalse ∧ Balanced whenTrue ∧
      Solid '|' whenFalse := by
  obtain ⟨texts, last, rfl, hsolid, hparts⟩ := exists_parts h ht
  obtain ⟨hsolid, hlast⟩ := List.forall_mem_append.1 hsolid
  rcases texts with _ | ⟨first, others⟩
  · rw [ternary_of_part hparts] at hread
    cases hread
  · refine ⟨joinWith ['|'] (first :: others), last, joinWith_concat (List.cons_ne_nil _ _) last, ?_,
      hlast last (.head _)⟩
    exact additive_balanced.joinWith (by decide) fun u hu => (hsolid u hu).balanced

/-! ## Arms -/

/-- An arm is read as its value and its branch. -/
theorem arm_of_shows {arm : Arm} (h : s.Shows src arm.text) :
    arm? src s =
      some (arm.value.text, branchAt (s.start + 1 + arm.value.text.length) arm.branch) := by
  have hinner : (Span.mk (s.start + 1) s.stop).Shows src (arm.value.text ++ arm.branch) := h.tail
  have hvalue := hinner.left
  have hbranch := hinner.right.branch_eq
  have hword := hinner.word_eq
  rw [arm.value.takeWhile arm.head?_branch] at hword
  rw [arm?, h.startsWith_eq, if_pos (by rfl)]
  dsimp only
  rw [hword, if_neg (not_isEmpty_of_shows hvalue), hvalue.text_eq]
  dsimp only
  rw [hbranch]

/-- Only what opens an arm is read as one. -/
theorem arm_eq_none_iff (h : s.Shows src t) : arm? src s = none ↔ ¬ OpensArm t := by
  rw [arm?, h.startsWith_eq]
  rcases t with _ | ⟨c, r⟩
  · refine iff_of_true rfl ?_
    rintro ⟨d, u, heq, -⟩
    cases heq
  · by_cases hc : c = ':'
    · subst hc
      rw [if_pos (by rfl)]
      dsimp only
      rw [h.tail.word.isEmpty_eq]
      rcases r with _ | ⟨d, u⟩
      · refine iff_of_true rfl ?_
        rintro ⟨d, u, heq, -⟩
        cases heq
      · by_cases hd : isWord d = true
        · rw [List.takeWhile_cons_of_pos hd, if_neg (by simp)]
          exact iff_of_false (Option.some_ne_none _) fun hnot => hnot ⟨d, u, rfl, hd⟩
        · rw [List.takeWhile_cons_of_neg hd, if_pos (by rfl)]
          refine iff_of_true rfl ?_
          rintro ⟨d', u', heq, hd'⟩
          obtain ⟨rfl, -⟩ := List.cons.inj (List.cons.inj heq).2
          exact hd hd'
    · rw [if_neg (by simpa using hc)]
      refine iff_of_true rfl ?_
      rintro ⟨d, u, heq, -⟩
      exact hc (List.cons.inj heq).1

/-- The arms are read one after the other. -/
theorem arms_of_shows {start : Nat} {arms : List Arm}
    (h : List.Forall₂ (fun part t => part.Shows src t) (Span.partsAt start (arms.map Arm.text))
      (arms.map Arm.text)) :
    (Span.partsAt start (arms.map Arm.text)).mapM (arm? src) = some (armsAt start arms) := by
  induction arms generalizing start with
  | nil => rfl
  | cons arm arms ih =>
      rw [List.map_cons, Span.partsAt] at h ⊢
      cases h with
      | cons hpart hparts =>
          rw [List.mapM_cons, arm_of_shows hpart, ih hparts]
          rfl

/-- And what is read as arms is some. -/
theorem exists_arms {parts : List Span} {texts : List Text} {read : List (Text × Span)}
    (h : List.Forall₂ (fun part t => part.Shows src t) parts texts)
    (hsolid : ∀ t ∈ texts, Solid '|' t) (hread : parts.mapM (arm? src) = some read) :
    ∃ arms : List Arm, texts = arms.map Arm.text := by
  induction h generalizing read with
  | nil => exact ⟨[], rfl⟩
  | @cons part t parts texts hpart hparts ih =>
      obtain ⟨ht, htexts⟩ := List.forall_mem_cons.1 hsolid
      rw [List.mapM_cons] at hread
      obtain ⟨first, hfirst, hread⟩ := Option.bind_eq_some_iff.1 hread
      obtain ⟨others, hothers, -⟩ := Option.bind_eq_some_iff.1 hread
      have hopens : OpensArm t := by
        by_contra hnot
        rw [(arm_eq_none_iff hpart).2 hnot] at hfirst
        cases hfirst
      obtain ⟨arm, rfl⟩ := exists_arm ht hopens
      obtain ⟨arms, rfl⟩ := ih htexts hothers
      exact ⟨arm :: arms, rfl⟩

/-! ## Matchings -/

theorem armsAfter_of_parts {name value : Text} {primary last : Span} {others : List Span}
    (h : s.parts src (.ofText src.toList) '|' = primary :: (others ++ [last])) :
    armsAfter? src (.ofText src.toList) name value s =
      if (arm? src last).isSome then none
      else (others.mapM (arm? src)).map fun alternatives =>
        .matching name ((value, primary.branch src) :: alternatives) (last.branch src) := by
  rw [armsAfter?, h]
  rcases hcons : others ++ [last] with _ | ⟨second, rest⟩
  · exact absurd hcons (by simp)
  · have hlast : (second :: rest).getLast (List.cons_ne_nil _ _) = last := by
      simp only [← hcons, List.getLast_append_singleton]
    have hothers : (second :: rest).dropLast = others := by
      rw [← hcons, List.dropLast_concat]
    dsimp only
    rw [hlast, hothers]

theorem armsAfter_of_part {name value : Text} {part : Span}
    (h : s.parts src (.ofText src.toList) '|' = [part]) :
    armsAfter? src (.ofText src.toList) name value s = none := by
  rw [armsAfter?, h]

/-- The arms and the fallback are read from the texts between the bars. -/
theorem armsAfter_of_shows (f : Matching) (name value : Text)
    (h : s.Shows src (joinWith ['|'] f.divided)) :
    armsAfter? src (.ofText src.toList) name value s =
      some (.matching name ((value, branchAt s.start f.primary) ::
          armsAt (s.start + f.primary.length + 1) f.arms)
        (branchAt (Span.afterParts (s.start + f.primary.length + 1) (f.arms.map Arm.text))
          f.fallback)) := by
  have hparts := h.parts_joinWith (by decide) (List.cons_ne_nil _ _) f.solid_divided
  have hshows := h.partsAt
  unfold Matching.divided at hparts hshows
  rw [Span.partsAt] at hparts hshows
  cases hshows with
  | cons hprimary hothers =>
      obtain ⟨harms, hlast⟩ := Span.forall₂_partsAt_append hothers
      rw [Span.partsAt_append, Span.partsAt, Span.partsAt] at hparts
      cases hlast with
      | cons hlast _ =>
          rw [armsAfter_of_parts hparts, (arm_eq_none_iff hlast).2 f.not_arm, if_neg (by decide),
            arms_of_shows harms, hprimary.branch_eq, hlast.branch_eq]
          rfl

/-- And from nothing else. -/
theorem exists_of_armsAfter {name value : Text} {expression : Conditional} (h : s.Shows src t)
    (ht : Balanced t) (hblank : startsWith isBlank t = true)
    (hread : armsAfter? src (.ofText src.toList) name value s = some expression) :
    ∃ (primary : Text) (arms : List Arm) (fallback : Text),
      t = joinWith ['|'] (primary :: (arms.map Arm.text ++ [fallback])) ∧ Solid '|' primary ∧
        startsWith isBlank primary = true ∧ Solid '|' fallback ∧ ¬ OpensArm fallback := by
  obtain ⟨texts, fallback, rfl, hsolid, hparts⟩ := exists_parts h ht
  have hshows := h.partsAt
  rcases texts with _ | ⟨primary, others⟩
  · rw [armsAfter_of_part hparts] at hread
    cases hread
  · rw [List.cons_append, Span.partsAt] at hparts hshows
    obtain ⟨hprimary, hsolid⟩ := List.forall_mem_cons.1 hsolid
    obtain ⟨hothers, hfallback⟩ := List.forall_mem_append.1 hsolid
    cases hshows with
    | cons _ hshows =>
        obtain ⟨harms, hlast⟩ := Span.forall₂_partsAt_append hshows
        rw [Span.partsAt_append, Span.partsAt, Span.partsAt] at hparts
        rw [armsAfter_of_parts hparts] at hread
        cases hlast with
        | cons hlast _ =>
            split at hread
            · cases hread
            · rename_i hnot
              obtain ⟨read, hreads, -⟩ := Option.map_eq_some_iff.1 hread
              obtain ⟨arms, rfl⟩ := exists_arms harms hothers hreads
              refine ⟨primary, arms, fallback, rfl, hprimary, ?_, hfallback fallback (.head _), ?_⟩
              · rw [List.cons_append, joinWith_cons (by simp)] at hblank
                cases primary with
                | nil => exact absurd hblank (show ¬ isBlank '|' = true by decide)
                | cons c r => exact hblank
              · rw [← arm_eq_none_iff hlast]
                exact Option.not_isSome_iff_eq_none.1 hnot

/-- After the value comes white space, or it is no matching. -/
theorem matching_of_word {name : Text} (h : s.Shows src (w.text ++ rest))
    (hrest : ∀ c ∈ rest.head?, isWord c = false) :
    matching? src (.ofText src.toList) name s =
      if startsWith isBlank rest = true then
        armsAfter? src (.ofText src.toList) name w.text ⟨s.start + w.text.length, s.stop⟩
      else none := by
  have hword := h.word_eq
  rw [w.takeWhile hrest] at hword
  have hvalue : (Span.mk s.start (s.start + w.text.length)).Shows src w.text := h.left
  have hafter : (Span.mk (s.start + w.text.length) s.stop).Shows src rest := h.right
  have hempty := Bool.eq_false_iff.2 (not_isEmpty_of_shows hvalue)
  have hblank := hafter.startsWithClass isBlank
  dsimp only at hblank
  rw [matching_eq, hword, hvalue.text_eq, hempty, Bool.false_or, ← hblank]
  cases (Span.mk (s.start + w.text.length) s.stop).isEmpty with
  | true => rfl
  | false =>
      cases src.holdsAt isBlank (s.start + w.text.length) with
      | true => rfl
      | false => rfl

theorem matching_of_no_word {name : Text} (h : s.Shows src t) (ht : t.takeWhile isWord = []) :
    matching? src (.ofText src.toList) name s = none := by
  have hempty : (s.word src).isEmpty = true := by
    rw [h.word.isEmpty_eq, ht]
    rfl
  rw [matching_eq, hempty, Bool.true_or, Bool.true_or, if_pos rfl]

/-! ## Forms are read -/

/-- A form is read as what its parts say. -/
theorem content_of_form (form : Form) (h : s.Shows src form.text) :
    content? src (.ofText src.toList) s = some (form.expression s.start) := by
  cases form with
  | ternary f =>
      have hmark : ∀ c ∈ ('?' :: (f.whenTrue ++ '|' :: f.whenFalse)).head?, isBlank c = false := by
        rintro c ⟨⟩
        decide
      have hbody := h.right.right.right.tail
      rw [content_eq h f.lead_blank (head?_gap f.gap_blank (by decide) _), trimStart,
        dropWhile_append_stop f.gap_blank hmark, List.head?_cons, if_pos rfl,
        takeWhile_append_stop f.gap_blank hmark]
      exact ternary_of_shows f.flag.text hbody f.balanced f.solid
  | matching f =>
      have hcolon : ∀ c ∈ (':' :: (f.value.text ++ joinWith ['|'] f.divided)).head?,
          isWord c = false := by
        rintro c ⟨⟩
        decide
      have htrim : trimStart (':' :: (f.value.text ++ joinWith ['|'] f.divided)) =
          ':' :: (f.value.text ++ joinWith ['|'] f.divided) := rfl
      have hbody := h.right.right.tail
      rw [content_eq h f.lead_blank hcolon, htrim, List.head?_cons, if_neg (by decide), if_pos rfl,
        matching_of_word hbody f.head?_divided, if_pos f.startsWith_isBlank]
      exact armsAfter_of_shows f f.name.text f.value.text hbody.right

/-! ## Nothing else is read -/

/-- What is read after a question mark is the branches of a ternary. -/
theorem exists_form_of_mark {start stop : Nat} {flag : Text} {expression : Conditional}
    (hlead : ∀ c ∈ lead, isBlank c = true) (h : (Span.mk start stop).Shows src rest)
    (ht : Balanced rest) (hmark : (trimStart rest).head? = some '?')
    (hread : ternary? src (.ofText src.toList) flag
      ⟨start + (rest.takeWhile isBlank).length + 1, stop⟩ = some expression) :
    ∃ form : Form, form.text = lead ++ (w.text ++ rest) := by
  have hgap : ∀ c ∈ rest.takeWhile isBlank, isBlank c = true :=
    fun c hc => List.mem_takeWhile_imp hc
  obtain ⟨body, hbody⟩ := List.head?_eq_some_iff.1 hmark
  have hsplit := trimStart_append_eq rest
  rw [hbody] at hsplit
  generalize rest.takeWhile isBlank = gap at hgap hsplit hread
  subst hsplit
  have hbalanced : Balanced ('?' :: body) :=
    ht.of_append_right (balanced_of_noBrace fun c hc => noBrace_of_isBlank (hgap c hc))
  have hone : Balanced ['?'] := by decide
  obtain ⟨whenTrue, whenFalse, rfl, htrue, hfalse⟩ := exists_of_ternary h.right.tail
    (Balanced.of_append_right (u := ['?']) hbalanced hone) hread
  exact ⟨.ternary ⟨lead, w, gap, whenTrue, whenFalse, hlead, hgap, htrue, hfalse⟩, rfl⟩

/-- What is read after a colon is the value, the arms and the fallback of a matching. -/
theorem exists_form_of_colon {name : Text} {expression : Conditional}
    (hlead : ∀ c ∈ lead, isBlank c = true) (h : s.Shows src t) (ht : Balanced t)
    (hread : matching? src (.ofText src.toList) name s = some expression) :
    ∃ form : Form, form.text = lead ++ (w.text ++ ':' :: t) := by
  by_cases hvalue : t.takeWhile isWord = []
  · rw [matching_of_no_word h hvalue] at hread
    cases hread
  · obtain ⟨value, hsplit⟩ := Word.exists_of_takeWhile hvalue
    have hrest := head?_dropWhile (p := isWord) t
    generalize t.dropWhile isWord = rest at hsplit hrest
    subst hsplit
    rw [matching_of_word h hrest] at hread
    split at hread
    · rename_i hblank
      have hbalanced : Balanced rest := ht.of_append_right (balanced_of_noBrace value.noBrace)
      obtain ⟨primary, arms, fallback, rfl, hprimary, hfirst, hfallback, hnot⟩ :=
        exists_of_armsAfter h.right hbalanced hblank hread
      exact ⟨.matching ⟨lead, w, value, primary, arms, fallback, hlead, hprimary, hfirst, hfallback,
        hnot⟩, rfl⟩
    · cases hread

/-- What is read is a form. -/
theorem exists_form {expression : Conditional} (h : s.Shows src t) (ht : Balanced t)
    (hread : content? src (.ofText src.toList) s = some expression) :
    ∃ form : Form, form.text = t := by
  by_cases hname : (trimStart t).takeWhile isWord = []
  · rw [content_of_no_word h hname] at hread
    cases hread
  · obtain ⟨w, hw⟩ := Word.exists_of_takeWhile hname
    have hlead : ∀ c ∈ t.takeWhile isBlank, isBlank c = true :=
      fun c hc => List.mem_takeWhile_imp hc
    have hrest := head?_dropWhile (p := isWord) (trimStart t)
    have hsplit := trimStart_append_eq t
    generalize t.takeWhile isBlank = lead at hlead hsplit
    generalize (trimStart t).dropWhile isWord = rest at hw hrest
    rw [hw] at hsplit
    subst hsplit
    have hbalanced : Balanced rest :=
      (ht.of_append_right (balanced_of_noBrace fun c hc => noBrace_of_isBlank (hlead c hc)))
        |>.of_append_right (balanced_of_noBrace w.noBrace)
    rw [content_eq h hlead hrest] at hread
    split at hread
    · rename_i hmark
      exact exists_form_of_mark hlead h.right.right hbalanced hmark hread
    · split at hread
      · rename_i hcolon
        obtain ⟨body, rfl⟩ := List.head?_eq_some_iff.1 hcolon
        have hone : Balanced [':'] := by decide
        exact exists_form_of_colon hlead h.right.right.tail
          (Balanced.of_append_right (u := [':']) hbalanced hone) hread
      · cases hread

/-! ## The branches -/

theorem text_branchAt (h : s.Shows src t) : (branchAt s.start t).text src = branchText t := by
  rw [← h.branch_eq]
  exact h.branch.text_eq

theorem text_armsAt {start : Nat} {arms : List Arm}
    (h : List.Forall₂ (fun part t => part.Shows src t) (Span.partsAt start (arms.map Arm.text))
      (arms.map Arm.text)) :
    armTexts src (armsAt start arms) =
      arms.map fun arm => (arm.value.text, branchText arm.branch) := by
  induction arms generalizing start with
  | nil => rfl
  | cons arm arms ih =>
      rw [List.map_cons, Span.partsAt] at h
      cases h with
      | cons hpart hparts =>
          have hbranch := text_branchAt (Span.Shows.right (u := arm.value.text) hpart.tail)
          rw [List.map_cons, ← ih hparts]
          exact congrArg (fun branch => (arm.value.text, branch) :: armTexts src _) hbranch

/-- The spans of a form stand for its branches. -/
theorem says_expression (form : Form) (h : s.Shows src form.text) :
    form.Says src (form.expression s.start) := by
  cases form with
  | ternary f =>
      have hbody := h.right.right.right.tail
      exact ⟨rfl, text_branchAt hbody.left, text_branchAt hbody.right.tail⟩
  | matching f =>
      have hbody := h.right.right.tail.right.partsAt
      unfold Matching.divided at hbody
      rw [Span.partsAt] at hbody
      cases hbody with
      | cons hprimary hothers =>
          obtain ⟨harms, hlast⟩ := Span.forall₂_partsAt_append hothers
          rw [Span.partsAt] at hlast
          cases hlast with
          | cons hlast _ =>
              refine ⟨rfl, ?_, text_branchAt hlast⟩
              show (_, _) :: armTexts src (armsAt _ f.arms) = _
              rw [text_armsAt harms, text_branchAt hprimary]

/-! ## The grammar -/

/-- What stands between a brace and its closing one is balanced. -/
theorem balanced_of_close {t : Text} {o c : Nat} (h : (BraceMap.ofText t).close o = some c) :
    Balanced (Span.text ⟨o + 1, c⟩ t.toArray) := by
  obtain ⟨before, body, after, rfl, hbody, rfl, rfl⟩ := BraceMap.close_ofText_iff.1 h
  have hshow := Span.Shows.group before body after
  rw [hshow.text_eq]
  exact hbody

/-- **The grammar of conditionals.**  An expression is read at a brace exactly if the brace
    is closed and a form stands between the two; what is read is what the form says, and no
    text has two forms. -/
theorem parse_iff_form (t : Text) (o : Nat) :
    (∀ expression close, parse? t.toArray (.ofText t) o = some (expression, close) ↔
      (BraceMap.ofText t).close o = some close ∧
        ∃ form : Form, form.text = Span.text ⟨o + 1, close⟩ t.toArray ∧
          expression = form.expression (o + 1) ∧ form.Says t.toArray expression) ∧
    ∀ form form' : Form, form.text = form'.text → form = form' := by
  refine ⟨?_, fun form form' h => Form.text_injective h⟩
  intro expression close
  constructor
  · intro h
    rw [parse_eq_some] at h
    obtain ⟨hclose, hread⟩ := h
    have hshow := (Span.Intact.inner hclose).shows_text
    obtain ⟨form, hform⟩ := exists_form hshow (balanced_of_close hclose) hread
    have hshow' := hform ▸ hshow
    have hexpression := (content_of_form form hshow').symm.trans hread
    rw [Option.some.injEq] at hexpression
    subst hexpression
    exact ⟨hclose, form, hform, rfl, says_expression form hshow'⟩
  · rintro ⟨hclose, form, hform, rfl, -⟩
    have hshow := (Span.Intact.inner hclose).shows_text
    rw [← hform] at hshow
    exact parse_eq_some.2 ⟨hclose, content_of_form form hshow⟩

/-- A group hides its bar, and a colon that no word follows opens no arm. -/
theorem parse_iff_form_group :
    let t := "\x7bv:x P|:y \x7bf?a|b\x7d|: F \x7d".toList
    parse? t.toArray (.ofText t) 0 = some (.matching "v".toList
      [("x".toList, ⟨5, 6⟩), ("y".toList, ⟨10, 17⟩)] ⟨18, 21⟩, 22) := by
  have word : ∀ {c : Char}, isWord c = true → ∀ d ∈ [c], isWord d = true := fun h =>
    List.forall_mem_singleton.2 h
  have hprimary : Solid '|' [' ', 'P'] :=
    .char (by decide) (by decide) (.char (by decide) (by decide) .nil)
  have hgroup : Solid '|' (' ' :: '\x7b' :: ("f?a|b".toList ++ '\x7d' :: [])) :=
    .char (by decide) (by decide) (.group (by decide) .nil)
  have hfallback : Solid '|' [':', ' ', 'F', ' '] :=
    .char (by decide) (by decide) (.char (by decide) (by decide)
      (.char (by decide) (by decide) (.char (by decide) (by decide) .nil)))
  have hnot : ¬ OpensArm [':', ' ', 'F', ' '] := by
    rintro ⟨c, r, heq, hc⟩
    obtain ⟨rfl, -⟩ := List.cons.inj (List.cons.inj heq).2
    exact absurd hc (by decide)
  refine ((parse_iff_form _ 0).1 _ 22).2 ⟨by decide +kernel, .matching
    { lead := [], name := ⟨['v'], List.cons_ne_nil _ _, word rfl⟩
      value := ⟨['x'], List.cons_ne_nil _ _, word rfl⟩
      primary := [' ', 'P'], fallback := [':', ' ', 'F', ' ']
      arms := [⟨⟨['y'], List.cons_ne_nil _ _, word rfl⟩, _, hgroup, rfl⟩]
      lead_blank := List.forall_mem_nil _, primary_solid := hprimary, primary_blank := rfl
      fallback_solid := hfallback, not_arm := hnot }, ?_, ?_, rfl, ?_, ?_⟩
  all_goals rfl

end Conditional
end StoryTemplate
