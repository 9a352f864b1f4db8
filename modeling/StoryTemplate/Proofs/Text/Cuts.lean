import StoryTemplate.Text.Split

/-! # Cuts — texts put together and taken apart

    What is joined by a separator is split at it again, as long as the parts do not
    hold it.  A needle of several characters is found where it first occurs, and
    nowhere else.  White space around a text that has none at its ends is trimmed
    off.

    Main facts: `splitAll_joinWith` and `splitAll_flatMap` (parts are read back),
    `breakOn_eq_some_iff` (a cut is at the first occurrence) and `trim_padded`. -/

namespace StoryTemplate

/-! ## Cuts at a character -/

section Characters

variable {sep : Char} {t rest : Text}

theorem splitAll_of_not_mem (h : sep ∉ t) : splitAll sep t = [t] := by
  induction t with
  | nil => rfl
  | cons c r ih =>
      obtain ⟨hc, hr⟩ := not_or.1 fun hmem => h (List.mem_cons.2 hmem)
      rw [splitAll, if_neg fun heq => hc heq.symm, ih hr]

/-- Every separator of a text parts it. -/
theorem splitAll_append_cons (s rest : Text) :
    splitAll sep (s ++ sep :: rest) = splitAll sep s ++ splitAll sep rest := by
  induction s with
  | nil => exact if_pos rfl
  | cons c r ih =>
      obtain ⟨part, parts, hparts⟩ := List.exists_cons_of_ne_nil (splitAll_ne_nil sep r)
      rw [List.cons_append, splitAll, splitAll, ih, hparts]
      by_cases hc : c = sep
      · rw [if_pos hc, if_pos hc]
        rfl
      · rw [if_neg hc, if_neg hc]
        rfl

theorem splitAll_append (h : sep ∉ t) :
    splitAll sep (t ++ sep :: rest) = t :: splitAll sep rest := by
  rw [splitAll_append_cons, splitAll_of_not_mem h]
  rfl

theorem joinWith_cons {texts : List Text} (hne : texts ≠ []) (t : Text) :
    joinWith [sep] (t :: texts) = t ++ sep :: joinWith [sep] texts := by
  obtain ⟨next, texts, rfl⟩ := List.exists_cons_of_ne_nil hne
  exact List.append_assoc t [sep] _

/-- One more text behind some joined ones. -/
theorem joinWith_concat {texts : List Text} (hne : texts ≠ []) (last : Text) :
    joinWith [sep] (texts ++ [last]) = joinWith [sep] texts ++ sep :: last := by
  induction texts with
  | nil => exact absurd rfl hne
  | cons a texts ih =>
      cases texts with
      | nil => exact joinWith_cons (List.cons_ne_nil last []) a
      | cons b texts =>
          have hrest : b :: texts ≠ [] := List.cons_ne_nil b texts
          rw [List.cons_append, joinWith_cons (by simp), ih hrest, joinWith_cons hrest,
            List.append_assoc, List.cons_append]

/-- More text behind the last of some joined ones. -/
theorem joinWith_append_last (texts : List Text) (a b : Text) :
    joinWith [sep] (texts ++ [a ++ b]) = joinWith [sep] (texts ++ [a]) ++ b := by
  by_cases hne : texts = []
  · rw [hne]
    rfl
  · rw [joinWith_concat hne, joinWith_concat hne, List.append_assoc, List.cons_append]

theorem infix_joinWith {texts : List Text} (h : t ∈ texts) : t <:+: joinWith [sep] texts := by
  induction texts with
  | nil => cases h
  | cons a texts ih =>
      cases texts with
      | nil =>
          obtain rfl := List.mem_singleton.1 h
          exact List.infix_refl t
      | cons b texts =>
          rw [joinWith_cons (List.cons_ne_nil b texts)]
          rcases List.mem_cons.1 h with rfl | h
          · exact List.infix_append' [] t _
          · exact (ih h).trans ⟨a ++ [sep], [], by simp⟩

/-- Joined texts are split again. -/
theorem splitAll_joinWith {texts : List Text} (hne : texts ≠ []) (h : ∀ t ∈ texts, sep ∉ t) :
    splitAll sep (joinWith [sep] texts) = texts := by
  induction texts with
  | nil => exact absurd rfl hne
  | cons a texts ih =>
      obtain ⟨ha, htexts⟩ := List.forall_mem_cons.1 h
      cases texts with
      | nil => exact splitAll_of_not_mem ha
      | cons b texts =>
          have hne : b :: texts ≠ [] := List.cons_ne_nil b texts
          rw [joinWith_cons hne, splitAll_append ha, ih hne htexts]

theorem splitFirst_append (h : sep ∉ t) : splitFirst sep (t ++ sep :: rest) = some (t, rest) := by
  induction t with
  | nil => exact if_pos rfl
  | cons c r ih =>
      obtain ⟨hc, hr⟩ := not_or.1 fun hmem => h (List.mem_cons.2 hmem)
      rw [List.cons_append, splitFirst, if_neg fun heq => hc heq.symm, ih hr]
      rfl

theorem splitFirst_eq_none_iff {s : Text} : splitFirst sep s = none ↔ sep ∉ s := by
  induction s with
  | nil => exact iff_of_true rfl List.not_mem_nil
  | cons c r ih =>
      rw [splitFirst, List.mem_cons, not_or, ← ih]
      by_cases hc : c = sep
      · rw [if_pos hc]
        exact iff_of_false (Option.some_ne_none _) fun h => h.1 hc.symm
      · rw [if_neg hc, Option.map_eq_none_iff]
        exact (and_iff_right (Ne.symm hc)).symm

/-- What holds of all characters of some texts and of the separator holds of all
    characters of the texts joined. -/
theorem forall_mem_joinWith {p : Char → Prop} (hsep : p sep) {texts : List Text}
    (h : ∀ t ∈ texts, ∀ c ∈ t, p c) : ∀ c ∈ joinWith [sep] texts, p c := by
  induction texts with
  | nil => exact fun c hc => nomatch hc
  | cons a texts ih =>
      obtain ⟨ha, htexts⟩ := List.forall_mem_cons.1 h
      cases texts with
      | nil => exact ha
      | cons b texts =>
          intro c hc
          rw [joinWith_cons (List.cons_ne_nil b texts)] at hc
          rcases List.mem_append.1 hc with hc | hc
          · exact ha c hc
          · rcases List.mem_cons.1 hc with rfl | hc
            · exact hsep
            · exact ih htexts c hc

/-- Texts with the separator behind each of them are split again, with an empty rest. -/
theorem splitAll_flatMap {texts : List Text} (h : ∀ t ∈ texts, sep ∉ t) :
    splitAll sep (texts.flatMap (· ++ [sep])) = texts ++ [[]] := by
  induction texts with
  | nil => rfl
  | cons a texts ih =>
      obtain ⟨ha, htexts⟩ := List.forall_mem_cons.1 h
      rw [List.flatMap_cons, List.append_assoc, List.singleton_append, splitAll_append ha,
        ih htexts, List.cons_append]

/-- No separator is left within a part. -/
theorem not_mem_of_mem_splitAll {s part : Text} (h : part ∈ splitAll sep s) : sep ∉ part := by
  induction s generalizing part with
  | nil =>
      obtain rfl := List.mem_singleton.1 h
      exact List.not_mem_nil
  | cons c r ih =>
      rw [splitAll] at h
      by_cases hc : c = sep
      · rw [if_pos hc] at h
        rcases List.mem_cons.1 h with rfl | h
        · exact List.not_mem_nil
        · exact ih h
      · rw [if_neg hc] at h
        obtain ⟨first, parts, hparts⟩ := List.exists_cons_of_ne_nil (splitAll_ne_nil sep r)
        rw [hparts] at h ih
        rcases List.mem_cons.1 h with rfl | h
        · exact List.not_mem_cons_of_ne_of_not_mem (Ne.symm hc) (ih List.mem_cons_self)
        · exact ih (List.mem_cons_of_mem first h)

theorem infix_of_mem_splitAll {s part : Text} (h : part ∈ splitAll sep s) : part <:+: s := by
  have hjoin := @infix_joinWith sep _ _ h
  rwa [joinWith_splitAll] at hjoin

/-- A needle of one character is a separator. -/
theorem breakOn_singleton (sep : Char) (s : Text) : breakOn [sep] s = splitFirst sep s := by
  induction s with
  | nil => rfl
  | cons c r ih =>
      by_cases hc : sep = c
      · rw [breakOn, splitFirst, if_pos hc.symm, hc, if_pos (by simp)]
        rfl
      · rw [breakOn, splitFirst, if_neg (Ne.symm hc), if_neg (by simpa using hc), ih]

end Characters

/-! ## Cuts at a needle -/

section Needles

variable {needle s before after : Text}

/-- A text that begins with the needle is cut there. -/
theorem breakOn_append_self (needle after : Text) :
    breakOn needle (needle ++ after) = some ([], after) := by
  cases hs : needle ++ after with
  | nil =>
      obtain ⟨rfl, rfl⟩ := List.append_eq_nil_iff.1 hs
      rfl
  | cons c r =>
      have hprefix : needle.isPrefixOf (c :: r) = true :=
        List.isPrefixOf_iff_prefix.2 ⟨after, hs⟩
      rw [breakOn, if_pos hprefix, ← hs, List.drop_left]

/-- Else it is cut where the rest is. -/
theorem breakOn_cons {c : Char} {r : Text} (h : ¬ needle <+: c :: r) :
    breakOn needle (c :: r) = (breakOn needle r).map fun cut => (c :: cut.1, cut.2) :=
  if_neg fun hprefix => h (List.isPrefixOf_iff_prefix.1 hprefix)

/-- A text without the needle is not cut, and only such a text. -/
theorem breakOn_eq_none_iff : breakOn needle s = none ↔ ¬ needle <:+: s := by
  induction s with
  | nil =>
      rw [breakOn, List.infix_nil]
      by_cases hempty : needle = [] <;> simp [hempty]
  | cons c r ih =>
      rw [breakOn, List.infix_cons_iff, not_or, ← List.isPrefixOf_iff_prefix]
      by_cases hprefix : needle.isPrefixOf (c :: r) = true
      · rw [if_pos hprefix]
        exact iff_of_false (Option.some_ne_none _) fun h => h.1 hprefix
      · rw [if_neg hprefix, Option.map_eq_none_iff, ih]
        exact (and_iff_right hprefix).symm

/-- A cut is not behind any other occurrence of the needle. -/
theorem length_le_of_breakOn (h : breakOn needle s = some (before, after)) {before' after' : Text}
    (hs : s = before' ++ needle ++ after') : before.length ≤ before'.length := by
  induction s generalizing before before' with
  | nil =>
      have hlen := congrArg List.length (breakOn_eq_some h)
      simp only [List.length_append, List.length_nil] at hlen
      omega
  | cons c r ih =>
      rw [breakOn] at h
      by_cases hprefix : needle.isPrefixOf (c :: r) = true
      · rw [if_pos hprefix, Option.some.injEq, Prod.mk.injEq] at h
        rw [← h.1]
        exact Nat.zero_le _
      · rw [if_neg hprefix] at h
        obtain ⟨cut, hcut, heq⟩ := Option.map_eq_some_iff.1 h
        obtain ⟨rfl, rfl⟩ := Prod.mk.inj heq
        cases before' with
        | nil =>
            exact absurd (List.isPrefixOf_iff_prefix.2 ⟨after', hs.symm⟩) hprefix
        | cons d before' =>
            exact Nat.succ_le_succ (ih hcut (List.cons.inj hs).2)

/-- In front of a cut the needle does not occur. -/
theorem not_infix_of_breakOn (hne : needle ≠ []) (h : breakOn needle s = some (before, after)) :
    ¬ needle <:+: before := by
  rintro ⟨front, back, hbefore⟩
  have hs : s = front ++ needle ++ (back ++ needle ++ after) := by
    rw [breakOn_eq_some h, ← hbefore]
    simp
  have hle := length_le_of_breakOn h hs
  have hlen := congrArg List.length hbefore
  have hpos := List.length_pos_iff.2 hne
  simp only [List.length_append] at hlen
  omega

/-- A text is cut where the needle first occurs. -/
theorem breakOn_eq_some_iff : breakOn needle s = some (before, after) ↔
    s = before ++ needle ++ after ∧
      ∀ before' after', s = before' ++ needle ++ after' → before.length ≤ before'.length := by
  refine ⟨fun h => ⟨breakOn_eq_some h, fun _ _ => length_le_of_breakOn h⟩, ?_⟩
  rintro ⟨hs, hfirst⟩
  cases hcut : breakOn needle s with
  | none => exact absurd ⟨before, after, hs.symm⟩ (breakOn_eq_none_iff.1 hcut)
  | some cut =>
      obtain ⟨before', after'⟩ := cut
      have hs' := breakOn_eq_some hcut
      have hlen := Nat.le_antisymm (length_le_of_breakOn hcut hs) (hfirst before' after' hs')
      have heq : before' ++ (needle ++ after') = before ++ (needle ++ after) := by
        rw [← List.append_assoc, ← List.append_assoc, ← hs, ← hs']
      obtain ⟨rfl, hrest⟩ := List.append_inj heq hlen
      rw [List.append_cancel_left hrest]

end Needles

/-! ## Runs of a class -/

/-- A run of a class in front of a character outside it is the longest one. -/
theorem takeWhile_append_stop {p : Char → Bool} {s t : Text} (hs : ∀ c ∈ s, p c = true)
    (ht : ∀ c ∈ t.head?, p c = false) : (s ++ t).takeWhile p = s := by
  rw [List.takeWhile_append_of_pos hs]
  cases t with
  | nil => exact List.append_nil s
  | cons c r =>
      rw [List.takeWhile_cons_of_neg (by rw [ht c rfl]; decide)]
      exact List.append_nil s

theorem dropWhile_append_stop {p : Char → Bool} {s t : Text} (hs : ∀ c ∈ s, p c = true)
    (ht : ∀ c ∈ t.head?, p c = false) : (s ++ t).dropWhile p = t := by
  rw [List.dropWhile_append_of_pos hs]
  cases t with
  | nil => rfl
  | cons c r => exact List.dropWhile_cons_of_neg (by rw [ht c rfl]; decide)

/-- A run of a class in front of a character outside it is where every such division of the
    text is. -/
theorem append_stop_inj {p : Char → Bool} {s s' t t' : Text} (hs : ∀ c ∈ s, p c = true)
    (hs' : ∀ c ∈ s', p c = true) (ht : ∀ c ∈ t.head?, p c = false)
    (ht' : ∀ c ∈ t'.head?, p c = false) (h : s ++ t = s' ++ t') : s = s' ∧ t = t' := by
  constructor
  · rw [← takeWhile_append_stop hs ht, h, takeWhile_append_stop hs' ht']
  · rw [← dropWhile_append_stop hs ht, h, dropWhile_append_stop hs' ht']

theorem head?_of_startsWith {p : Char → Bool} {s : Text} (h : startsWith p s = false) :
    ∀ c ∈ s.head?, p c = false := by
  cases s with
  | nil => exact fun c hc => nomatch hc
  | cons c r =>
      rintro c ⟨⟩
      exact h

/-- What comes after the longest run of a class does not begin in the class. -/
theorem head?_dropWhile {p : Char → Bool} (t : Text) : ∀ c ∈ (t.dropWhile p).head?, p c = false := by
  intro c hc
  have hhead := List.head?_dropWhile_not p t
  rw [hc] at hhead
  simpa using hhead

/-! ## Trimming -/

theorem startsWith_trimStart (s : Text) : startsWith isBlank (trimStart s) = false := by
  have hhead := @head?_dropWhile isBlank s
  cases h : trimStart s with
  | nil => rfl
  | cons c r =>
      rw [trimStart] at h
      rw [h] at hhead
      exact hhead c rfl

/-- A trimmed text does not begin with white space. -/
theorem startsWith_trim (s : Text) : startsWith isBlank (trim s) = false := by
  have hprefix : trim s <+: trimStart s := by
    have hsuffix := List.dropWhile_suffix (l := (trimStart s).reverse) isBlank
    rw [← List.reverse_prefix, List.reverse_reverse] at hsuffix
    exact hsuffix
  cases h : trim s with
  | nil => rfl
  | cons c r =>
      rw [h] at hprefix
      obtain ⟨rest, hrest⟩ := hprefix
      have hstart := startsWith_trimStart s
      rw [← hrest] at hstart
      exact hstart

/-- Nor does it end with any. -/
theorem getLast?_trim (s : Text) : (trim s).getLast?.any isBlank = false := by
  rw [trim, trimEnd, List.getLast?_reverse, Option.any_eq_false_iff_get]
  intro h
  exact head?_dropWhile _ _ (Option.get_mem h)

/-- White space in front of a text that does not begin with any is trimmed at the start. -/
theorem trimStart_blank {space s : Text} (hspace : ∀ c ∈ space, isBlank c = true)
    (hstart : startsWith isBlank s = false) : trimStart (space ++ s) = s :=
  dropWhile_append_stop hspace (head?_of_startsWith hstart)

/-- White space behind a text that does not end with any is trimmed at the end. -/
theorem trimEnd_blank {space s : Text} (hspace : ∀ c ∈ space, isBlank c = true)
    (hend : s.getLast?.any isBlank = false) : trimEnd (s ++ space) = s := by
  have hreverse : trimStart (space.reverse ++ s.reverse) = s.reverse := by
    refine trimStart_blank (fun c hc => hspace c (List.mem_reverse.1 hc)) ?_
    rcases List.eq_nil_or_concat s with rfl | ⟨r, c, rfl⟩
    · rfl
    · rw [List.concat_eq_append] at hend ⊢
      rw [List.getLast?_concat] at hend
      rw [List.reverse_append]
      exact hend
  rw [trimEnd, List.reverse_append, ← trimStart, hreverse, List.reverse_reverse]

/-- White space in front of a text that does not begin with any, nor end with any, is all
    that is trimmed. -/
theorem trim_padded {space s : Text} (hspace : ∀ c ∈ space, isBlank c = true)
    (hstart : startsWith isBlank s = false) (hend : s.getLast?.any isBlank = false) :
    trim (space ++ s) = s := by
  have hback := trimEnd_blank (List.forall_mem_nil _) hend
  rw [List.append_nil] at hback
  rw [trim, trimStart_blank hspace hstart, hback]

/-- White space around a text that does not begin or end with any is all that is trimmed. -/
theorem trim_between {before s after : Text} (hbefore : ∀ c ∈ before, isBlank c = true)
    (hafter : ∀ c ∈ after, isBlank c = true) (hne : s ≠ [])
    (hstart : startsWith isBlank s = false) (hend : s.getLast?.any isBlank = false) :
    trim (before ++ s ++ after) = s := by
  have hfront : startsWith isBlank (s ++ after) = false := by
    obtain ⟨c, r, rfl⟩ := List.exists_cons_of_ne_nil hne
    exact hstart
  rw [trim, List.append_assoc, trimStart_blank hbefore hfront, trimEnd_blank hafter hend]

end StoryTemplate
