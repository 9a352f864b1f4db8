import StoryTemplate.Proofs.Braces.Solid

/-! # Division — a balanced text is solid texts and separators

    A balanced text is made of groups and of characters that are no braces.  The
    separators among those characters divide it into solid texts, and there is no
    other division of it into such texts.

    Main facts: `Balanced.induction` (from one group or character to the next),
    `Balanced.exists_joinWith` (a balanced text is divided) and `joinWith_inj` (in
    one way). -/

namespace StoryTemplate

variable {sep : Char} {s t r : Text}

/-! ## From group to group -/

/-- What a balanced text begins with is a group, if it begins with a brace. -/
theorem Balanced.exists_group (h : Balanced ('\x7b' :: r)) :
    ∃ body after, r = body ++ '\x7d' :: after ∧ Balanced body ∧ Balanced after := by
  have hlevel : levelAfter (0 + 0 + 1) r = some 0 := by
    have hopen : levelAfter 0 ('\x7b' :: r) = some 0 := h
    rwa [levelAfter_open] at hopen
  obtain ⟨n, hn⟩ : ∃ n, closingOffset 0 r = some n :=
    closingOffset_isSome hlevel (Nat.le_refl 0)
  obtain ⟨body, after, rfl, -, hbody⟩ := exists_of_closingOffset hn
  refine ⟨body, after, rfl, hbody, ?_⟩
  have hsplit : '\x7b' :: (body ++ '\x7d' :: after) = '\x7b' :: (body ++ ['\x7d']) ++ after := by
    simp
  rw [hsplit] at h
  exact h.of_append_right (Balanced.group hbody)

/-- Induction on a balanced text from one group or character to the next. -/
theorem Balanced.induction {motive : ∀ t : Text, Balanced t → Prop}
    (nil : motive [] balanced_nil)
    (char : ∀ (c : Char) (r : Text) (hr : Balanced r) (h : Balanced (c :: r)), NoBrace c →
      motive r hr → motive (c :: r) h)
    (group : ∀ (body after : Text) (hafter : Balanced after)
      (h : Balanced ('\x7b' :: (body ++ '\x7d' :: after))), Balanced body →
      motive after hafter → motive ('\x7b' :: (body ++ '\x7d' :: after)) h)
    (h : Balanced t) : motive t h := by
  induction hn : t.length using Nat.strongRecOn generalizing t with
  | ind n ih =>
      subst hn
      cases t with
      | nil => exact nil
      | cons c r =>
          rcases brace_cases c with rfl | rfl | hc
          · obtain ⟨body, after, rfl, hbody, hafter⟩ := h.exists_group
            refine group body after hafter h hbody (ih after.length ?_ hafter rfl)
            simp only [List.length_cons, List.length_append]
            omega
          · -- No balanced text begins with a closing brace.
            have hclose : levelAfter 0 ('\x7d' :: r) = some 0 := h
            rw [levelAfter_close_zero] at hclose
            cases hclose
          · have hone : Balanced [c] := balanced_of_noBrace (by simpa using hc)
            have hrest : Balanced r := Balanced.of_append_right (u := [c]) h hone
            exact char c r hrest h hc (ih r.length (Nat.lt_succ_self _) hrest rfl)

/-- A text is solid if it is balanced and no separator in it stands outside of groups. -/
theorem solid_iff (hsep : NoBrace sep) : Solid sep t ↔
    Balanced t ∧ ∀ before after, t = before ++ sep :: after → ¬ Balanced before := by
  constructor
  · intro h
    refine ⟨h.balanced, ?_⟩
    intro before after heq hbefore
    induction h generalizing before with
    | nil => cases before <;> cases heq
    | @char c r plain other rest ih =>
        cases before with
        | nil => exact other (List.cons.inj heq).1
        | cons d before =>
            obtain ⟨rfl, hr⟩ := List.cons.inj heq
            have hone : Balanced [c] := balanced_of_noBrace (by simpa using plain)
            exact ih before hr (Balanced.of_append_right (u := [c]) hbefore hone)
    | @group body r inside rest ih =>
        cases before with
        | nil => exact hsep.1 (List.cons.inj heq).1.symm
        | cons d before =>
            obtain ⟨rfl, hr⟩ := List.cons.inj heq
            obtain ⟨body', middle, rfl, hbody', hmiddle⟩ := hbefore.exists_group
            have hgroups : body ++ '\x7d' :: r = body' ++ '\x7d' :: (middle ++ sep :: after) :=
              hr.trans (List.append_assoc body' _ _)
            exact ih middle (inside.close_unique hbody' hgroups).2 hmiddle
  · rintro ⟨hbalanced, hnone⟩
    induction hbalanced using Balanced.induction with
    | nil => exact .nil
    | char c r hr h hc ih =>
        refine .char hc ?_ (ih ?_)
        · rintro rfl
          exact hnone [] r rfl balanced_nil
        · rintro before after rfl hbefore
          have hone : Balanced [c] := balanced_of_noBrace (by simpa using hc)
          exact hnone (c :: before) after rfl (hone.append hbefore)
    | group body after hafter h hbody ih =>
        refine .group hbody (ih ?_)
        rintro before rest rfl hbefore
        refine hnone ('\x7b' :: (body ++ ['\x7d']) ++ before) rest ?_ (hbody.group.append hbefore)
        simp

/-! ## What texts are put together from -/

/-- The property holds of texts without braces, and of two texts one after the other
    if it holds of both. -/
structure Additive (p : Text → Prop) : Prop where
  text {s : Text} : (∀ c ∈ s, NoBrace c) → p s
  append {s t : Text} : p s → p t → p (s ++ t)

theorem additive_balanced : Additive Balanced where
  text := balanced_of_noBrace
  append := Balanced.append

namespace Additive

variable {p : Text → Prop}

theorem char (hp : Additive p) {c : Char} (hc : NoBrace c) : p [c] :=
  hp.text (List.forall_mem_singleton.2 hc)

theorem joinWith (hp : Additive p) (hsep : NoBrace sep) {texts : List Text}
    (h : ∀ t ∈ texts, p t) : p (joinWith [sep] texts) := by
  induction texts with
  | nil => exact hp.text fun c hc => nomatch hc
  | cons a texts ih =>
      obtain ⟨ha, htexts⟩ := List.forall_mem_cons.1 h
      cases texts with
      | nil => exact ha
      | cons b texts =>
          have hone : p [sep] := hp.char hsep
          exact hp.append (hp.append ha hone) (ih htexts)

end Additive

/-! ## Joined texts -/

/-- A text in front of the first of some joined ones. -/
theorem joinWith_append_head (a b : Text) (texts : List Text) :
    joinWith [sep] ((a ++ b) :: texts) = a ++ joinWith [sep] (b :: texts) := by
  cases texts with
  | nil => rfl
  | cons c texts =>
      have hne : c :: texts ≠ [] := List.cons_ne_nil c texts
      rw [joinWith_cons hne, joinWith_cons hne, List.append_assoc]

/-! ## Division -/

/-- A balanced text is some solid texts joined by the separator. -/
theorem Balanced.exists_joinWith (sep : Char) (h : Balanced t) :
    ∃ texts, texts ≠ [] ∧ (∀ s ∈ texts, Solid sep s) ∧ t = joinWith [sep] texts := by
  -- Whatever stands in front goes to the first of the texts, a separator apart.
  have extend : ∀ {s r : Text}, Solid sep s →
      (∃ texts, texts ≠ [] ∧ (∀ s ∈ texts, Solid sep s) ∧ r = joinWith [sep] texts) →
      ∃ texts, texts ≠ [] ∧ (∀ s ∈ texts, Solid sep s) ∧ s ++ r = joinWith [sep] texts := by
    rintro s r hs ⟨texts, hne, hsolid, rfl⟩
    obtain ⟨a, texts, rfl⟩ := List.exists_cons_of_ne_nil hne
    obtain ⟨ha, htexts⟩ := List.forall_mem_cons.1 hsolid
    refine ⟨(s ++ a) :: texts, List.cons_ne_nil _ _, ?_, (joinWith_append_head s a texts).symm⟩
    exact List.forall_mem_cons.2 ⟨hs.append ha, htexts⟩
  induction h using Balanced.induction with
  | nil => exact ⟨[[]], List.cons_ne_nil _ _, by simpa using Solid.nil, rfl⟩
  | char c r hr h hc ih =>
      by_cases hsep : c = sep
      · subst hsep
        obtain ⟨texts, hne, hsolid, rfl⟩ := ih
        refine ⟨[] :: texts, List.cons_ne_nil _ _, List.forall_mem_cons.2 ⟨.nil, hsolid⟩, ?_⟩
        obtain ⟨a, texts, rfl⟩ := List.exists_cons_of_ne_nil hne
        rfl
      · exact extend (.char hc hsep .nil) ih
  | group body after hafter h hbody ih =>
      have hgroup : Solid sep ('\x7b' :: (body ++ ['\x7d'])) := .group hbody .nil
      have hjoin := extend hgroup ih
      rwa [List.cons_append, List.append_assoc, List.singleton_append] at hjoin

/-- Solid texts that are joined to the same text are the same texts. -/
theorem joinWith_inj (hsep : NoBrace sep) {texts others : List Text} (htexts : texts ≠ [])
    (hothers : others ≠ []) (hsolid : ∀ s ∈ texts, Solid sep s)
    (hsolid' : ∀ s ∈ others, Solid sep s)
    (h : joinWith [sep] texts = joinWith [sep] others) : texts = others := by
  -- Both are the parts of the one text.
  have hshow := Span.Shows.whole (joinWith [sep] texts)
  have hshow' : (Span.mk 0 (joinWith [sep] texts).toArray.size).Shows
      (joinWith [sep] texts).toArray (joinWith [sep] others) := h ▸ hshow
  have hparts := hshow.parts_joinWith hsep htexts hsolid
  rw [hshow'.parts_joinWith hsep hothers hsolid'] at hparts
  rw [← hshow.map_text, ← hshow'.map_text, hparts]

/-- A text is divided at its last separator outside of groups in one way. -/
theorem Balanced.append_solid_inj (hsep : NoBrace sep) {s' t' : Text} (ht : Balanced t)
    (ht' : Balanced t') (hs : Solid sep s) (hs' : Solid sep s')
    (h : t ++ sep :: s = t' ++ sep :: s') : t = t' ∧ s = s' := by
  obtain ⟨texts, hne, hsolid, rfl⟩ := ht.exists_joinWith sep
  obtain ⟨others, hne', hsolid', rfl⟩ := ht'.exists_joinWith sep
  rw [← joinWith_concat hne, ← joinWith_concat hne'] at h
  have heq := joinWith_inj hsep (List.append_ne_nil_of_left_ne_nil hne [s])
    (List.append_ne_nil_of_left_ne_nil hne' [s'])
    (List.forall_mem_append.2 ⟨hsolid, List.forall_mem_singleton.2 hs⟩)
    (List.forall_mem_append.2 ⟨hsolid', List.forall_mem_singleton.2 hs'⟩) h
  obtain ⟨rfl, hlast⟩ := List.append_inj' heq rfl
  exact ⟨rfl, (List.cons.inj hlast).1⟩

end StoryTemplate
