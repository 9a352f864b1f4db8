import StoryTemplate.Proofs.Injection.Recursion

/-! # Reach — when a pass over the injections succeeds

    The values of a source name one another, so the source is a graph of names.  A
    pass over a text walks this graph from the names in the text, depth first, and
    enters a name again each time that it meets it; only a name that is met below
    itself ends the walk.

    Whether the walk comes to an end is a matter of the graph alone.  A name
    `Resolves` if it has a value all of whose names resolve, and then nothing that it
    reaches is missing or reaches itself.

    Main facts: `findInjection_some_iff` (what a search finds, in terms of names),
    `resolves_of_expand` (a walk that comes to an end has seen nothing but names that
    resolve), `explained_of_expand` (a walk that stops has found a name that does not)
    and `inject_succeeds_iff`. -/

namespace StoryTemplate

/-- The stored value of a name holds an expression with the next one. -/
def Leads (source : Dict Text) (name next : Text) : Prop :=
  ∃ value, source.get? name = some value ∧ Names value next

/-- The name is that of an expression in the text, or such a name leads to it. -/
def Reached (source : Dict Text) (s name : Text) : Prop :=
  ∃ first, Names s first ∧ Relation.ReflTransGen (Leads source) first name

/-- The name has a value, and so have all names in it, and so on to the end. -/
inductive Resolves (source : Dict Text) : Text → Prop
  | intro {name value : Text} (stored : injectedValue? source name = some value)
      (inside : ∀ next, Names value next → Resolves source next) : Resolves source name

variable {source : Dict Text} {chain : List Text} {s t name next value : Text}

/-! ## Names in a text -/

/-- No expression of a text begins before the first one that a search finds. -/
theorem length_before_le {found : InjectionMatch} (h : findInjection? s = some found)
    {before body after : Text} (hbody : IsInjection name body)
    (hs : s = before ++ '\x7b' :: (body ++ '\x7d' :: after)) :
    found.before.length ≤ before.length := by
  induction s generalizing found before with
  | nil => exact nomatch h
  | cons c r ih =>
      cases hat : injectionAt? (c :: r) with
      | some read =>
          rw [findInjection_here hat, Option.some.injEq] at h
          subst h
          exact Nat.zero_le _
      | none =>
          rw [findInjection_later hat] at h
          obtain ⟨inner, hinner, rfl⟩ := Option.map_eq_some_iff.1 h
          cases before with
          | nil =>
              rw [hs, List.nil_append, injectionAt_expression hbody] at hat
              exact nomatch hat
          | cons d before => exact Nat.succ_le_succ (ih hinner (List.cons.inj hs).2)

theorem Names.of_infix (h : Names t name) (hts : t <:+: s) : Names s name := by
  obtain ⟨before, body, after, hbody, rfl⟩ := h
  obtain ⟨front, back, rfl⟩ := hts
  exact ⟨front ++ before, body, after ++ back, hbody, by simp⟩

/-- The names in a text are that of any expression in it and those on either side. -/
theorem names_around_iff {before body after : Text} (hbody : IsInjection next body) :
    Names (before ++ '\x7b' :: (body ++ '\x7d' :: after)) name ↔
      Names before name ∨ name = next ∨ Names after name := by
  constructor
  · rintro ⟨before', body', after', hbody', hs⟩
    rcases apart hbody.noBrace hbody'.noBrace hs with
      ⟨-, rfl, -⟩ | ⟨mid, -, hafter⟩ | ⟨mid, hbefore, -⟩
    · exact .inr (.inl (hbody'.name_unique hbody))
    · exact .inr (.inr ⟨mid, body', after', hbody', hafter⟩)
    · exact .inl ⟨before', body', mid, hbody', hbefore⟩
  · rintro (hname | rfl | hname)
    · exact hname.of_infix (List.prefix_append _ _).isInfix
    · exact ⟨before, body, after, hbody, rfl⟩
    · exact hname.of_infix (infix_after_group before body after)

/-- A search finds nothing exactly if the text names nothing. -/
theorem findInjection_none_iff : findInjection? s = none ↔ ∀ name, ¬ Names s name := by
  rw [findInjection_eq_none_iff]
  constructor
  · rintro h name ⟨before, body, after, hbody, rfl⟩
    exact h before body after rfl (balanced_of_noBrace hbody.noBrace) ⟨name, hbody⟩
  · rintro h before body after rfl - ⟨name, hbody⟩
    exact h name ⟨before, body, after, hbody, rfl⟩

/-- What a search finds is the expression before which the text names nothing. -/
theorem findInjection_some_iff {found : InjectionMatch} : findInjection? s = some found ↔
    ∃ body, s = found.before ++ '\x7b' :: (body ++ '\x7d' :: found.after) ∧
      IsInjection found.name body ∧ ∀ name, ¬ Names found.before name := by
  constructor
  · intro h
    obtain ⟨body, hshape, hbody⟩ := exists_of_findInjection h
    refine ⟨body, hshape, hbody, ?_⟩
    rintro name ⟨before, body', after, hbody', heq⟩
    -- An expression there would have been found first.
    have hs : s = before ++ '\x7b' :: (body' ++
        '\x7d' :: (after ++ '\x7b' :: (body ++ '\x7d' :: found.after))) := by
      rw [hshape, heq]
      simp
    have hle := length_before_le h hbody' hs
    rw [heq, List.length_append, List.length_cons] at hle
    omega
  · rintro ⟨body, hshape, hbody, hfirst⟩
    cases hfind : findInjection? s with
    | none =>
        exact (findInjection_none_iff.1 hfind found.name
          ⟨found.before, body, found.after, hbody, hshape⟩).elim
    | some other =>
        obtain ⟨body', hshape', hbody'⟩ := exists_of_findInjection hfind
        have hle := length_before_le hfind hbody hshape
        rcases apart hbody.noBrace hbody'.noBrace (hshape.symm.trans hshape') with
          ⟨hbefore, rfl, hafter⟩ | ⟨mid, hbefore, -⟩ | ⟨mid, hbefore, -⟩
        · cases found
          cases other
          obtain rfl := hbody.name_unique hbody'
          obtain rfl := hbefore
          obtain rfl := hafter
          rfl
        · rw [hbefore, List.length_append, List.length_cons] at hle
          omega
        · exact absurd ⟨other.before, body', mid, hbody', hbefore⟩ (hfirst other.name)

/-- The names in a text are the first one and those in the rest. -/
theorem names_iff {found : InjectionMatch} (h : findInjection? s = some found) :
    Names s name ↔ name = found.name ∨ Names found.after name := by
  obtain ⟨body, hshape, hbody, hfirst⟩ := findInjection_some_iff.1 h
  rw [hshape, names_around_iff hbody]
  exact or_iff_right (hfirst name)

/-! ## Names that resolve -/

theorem injectedValue_eq_some_iff :
    injectedValue? source name = some value ↔ source.get? name = some value ∧ value ≠ [] := by
  rw [injectedValue?, Option.filter_eq_some_iff, decide_eq_true_eq]

theorem injectedValue_eq_none_iff : injectedValue? source name = none ↔
    source.get? name = none ∨ source.get? name = some [] := by
  rw [injectedValue?]
  cases hget : source.get? name with
  | none => exact ⟨fun _ => .inl rfl, fun _ => rfl⟩
  | some value => simp [Option.filter]

theorem leads_iff (h : injectedValue? source name = some value) :
    Leads source name next ↔ Names value next := by
  have hget := (injectedValue_eq_some_iff.1 h).1
  constructor
  · rintro ⟨value', hvalue', hnames⟩
    rw [hget, Option.some.injEq] at hvalue'
    exact hvalue' ▸ hnames
  · intro hnames
    exact ⟨value, hget, hnames⟩

namespace Resolves

theorem leads (h : Resolves source name) (hlead : Leads source name next) :
    Resolves source next := by
  cases h with
  | intro stored inside => exact inside next ((leads_iff stored).1 hlead)

theorem reaches (h : Resolves source name)
    (hreach : Relation.ReflTransGen (Leads source) name next) : Resolves source next := by
  induction hreach with
  | refl => exact h
  | tail _ hlast ih => exact ih.leads hlast

/-- A name that resolves does not lead back to itself. -/
theorem not_loop (h : Resolves source name) :
    ¬ Relation.TransGen (Leads source) name name := by
  induction h with
  | @intro name value stored inside ih =>
      intro hloop
      obtain ⟨next, hlead, hback⟩ := Relation.TransGen.head'_iff.1 hloop
      exact ih next ((leads_iff stored).1 hlead) (Relation.TransGen.tail' hback hlead)

end Resolves

/-- A walk that comes to an end has seen only names that resolve. -/
theorem resolves_of_expand {p : Pass} (h : expand source chain s = .ok p)
    (hname : Names s name) : Resolves source name := by
  induction chain, s using expand_induction source generalizing p name with
  | plain chain s hfind => exact absurd hname (findInjection_none_iff.1 hfind name)
  | missing chain s found hfind hvalue =>
      rw [expand_some hfind, expandName_missing hvalue] at h
      exact nomatch h
  | cycle chain s found value hfind hvalue hcycle =>
      rw [expand_some hfind, expandName_cycle hvalue hcycle] at h
      exact nomatch h
  | enter chain s found value hfind hvalue hfresh ihv ihr =>
      rw [expand_some hfind, expandName_enter hvalue hfresh] at h
      obtain ⟨inner, hinner, h⟩ := bind_eq_ok_iff.1 h
      obtain ⟨rest, hrest, -⟩ := map_eq_ok_iff.1 h
      rcases (names_iff hfind).1 hname with rfl | hname
      · exact .intro hvalue fun next hnext => ihv hinner hnext
      · exact ihr hrest hname

/-! ## Names that do not -/

theorem Reached.of_infix (h : Reached source t name) (hts : t <:+: s) :
    Reached source s name := by
  obtain ⟨first, hfirst, hreach⟩ := h
  exact ⟨first, hfirst.of_infix hts, hreach⟩

/-- What is reached from the value of a name comes after the name. -/
theorem Reached.loop {first : Text} (hvalue : injectedValue? source first = some value)
    (h : Reached source value name) : Relation.TransGen (Leads source) first name := by
  obtain ⟨next, hnext, hreach⟩ := h
  exact .head' ((leads_iff hvalue).2 hnext) hreach

/-- A fault names a name that is reached from the text and does not resolve: it has
    no value, or else it is under expansion already or leads back to itself. -/
inductive Explained (source : Dict Text) (chain : List Text) (s : Text) : Fault → Prop
  | missing {name : Text} (reached : Reached source s name)
      (stored : injectedValue? source name = none) :
      Explained source chain s (.nothingInjected name)
  | cycle {name : Text} (reached : Reached source s name)
      (loop : name ∈ chain ∨ Relation.TransGen (Leads source) name name) :
      Explained source chain s (.injectionCycle name)

theorem Explained.of_suffix {fault : Fault} (h : Explained source chain t fault)
    (hts : t <:+ s) : Explained source chain s fault := by
  cases h with
  | missing reached stored => exact .missing (reached.of_infix hts.isInfix) stored
  | cycle reached loop => exact .cycle (reached.of_infix hts.isInfix) loop

/-- A fault in a value is one of the text that names it; if it is the name itself
    that is met again, that is a loop. -/
theorem Explained.of_value {fault : Fault} {first : Text} (hfirst : Names s first)
    (hvalue : injectedValue? source first = some value)
    (h : Explained source (first :: chain) value fault) : Explained source chain s fault := by
  cases h with
  | missing reached stored =>
      exact .missing ⟨first, hfirst, (reached.loop hvalue).to_reflTransGen⟩ stored
  | cycle reached loop =>
      have hafter := reached.loop hvalue
      refine .cycle ⟨first, hfirst, hafter.to_reflTransGen⟩ ?_
      rcases loop with hmem | hloop
      · rcases List.mem_cons.1 hmem with rfl | hmem
        · exact .inr hafter
        · exact .inl hmem
      · exact .inr hloop

/-- A walk that stops has found a name that does not resolve. -/
theorem explained_of_expand {fault : Fault} (h : expand source chain s = .error fault) :
    Explained source chain s fault := by
  induction chain, s using expand_induction source generalizing fault with
  | plain chain s hfind =>
      rw [expand_none hfind] at h
      exact nomatch h
  | missing chain s found hfind hvalue =>
      rw [expand_some hfind, expandName_missing hvalue] at h
      obtain rfl := Except.error.inj h
      exact .missing ⟨found.name, (names_iff hfind).2 (.inl rfl), .refl⟩ hvalue
  | cycle chain s found value hfind hvalue hcycle =>
      rw [expand_some hfind, expandName_cycle hvalue hcycle] at h
      obtain rfl := Except.error.inj h
      exact .cycle ⟨found.name, (names_iff hfind).2 (.inl rfl), .refl⟩ (.inl hcycle)
  | enter chain s found value hfind hvalue hfresh ihv ihr =>
      rw [expand_some hfind, expandName_enter hvalue hfresh] at h
      cases hinner : expand source (found.name :: chain) value with
      | error fault' =>
          rw [hinner] at h
          obtain rfl := Except.error.inj h
          exact (ihv hinner).of_value ((names_iff hfind).2 (.inl rfl)) hvalue
      | ok inner =>
          rw [hinner] at h
          change (expand source chain found.after).map _ = _ at h
          cases hrest : expand source chain found.after with
          | error fault' =>
              rw [hrest] at h
              obtain rfl := Except.error.inj h
              exact (ihr hrest).of_suffix (suffix_of_findInjection hfind)
          | ok rest =>
              rw [hrest] at h
              exact nomatch h

/-! ## Passes -/

/-- A pass over the injections of a text succeeds exactly if every name that it can
    reach has a value that is not empty, and none of them leads back to itself; how
    often a name is met does not count.  A pass that fails tells a name that is
    reached: one that is missing or empty, or one that leads back to itself. -/
theorem inject_succeeds_iff (source : Dict Text) (t : Text) :
    ((∃ p, inject source t = .ok p) ↔ ∀ name, Reached source t name →
      (∃ value, source.get? name = some value ∧ value ≠ []) ∧
        ¬ Relation.TransGen (Leads source) name name) ∧
    (∀ name, inject source t = .error (.nothingInjected name) →
      Reached source t name ∧ (source.get? name = none ∨ source.get? name = some [])) ∧
    (∀ name, inject source t = .error (.injectionCycle name) →
      Reached source t name ∧ Relation.TransGen (Leads source) name name) ∧
    ∀ fault, inject source t = .error fault →
      ∃ name, fault = .nothingInjected name ∨ fault = .injectionCycle name := by
  rw [inject_eq]
  refine ⟨⟨?_, ?_⟩, ?_, ?_, ?_⟩
  · rintro ⟨p, hp⟩ name ⟨first, hfirst, hreach⟩
    have hresolves := (resolves_of_expand hp hfirst).reaches hreach
    refine ⟨?_, hresolves.not_loop⟩
    cases hresolves with
    | @intro _ value stored _ => exact ⟨value, injectedValue_eq_some_iff.1 stored⟩
  · intro hall
    cases hresult : expand source [] t with
    | ok p => exact ⟨p, rfl⟩
    | error fault =>
        cases explained_of_expand hresult with
        | missing reached stored =>
            obtain ⟨value, hvalue⟩ := (hall _ reached).1
            rw [injectedValue_eq_some_iff.2 hvalue] at stored
            exact nomatch stored
        | cycle reached loop =>
            exact absurd (loop.resolve_left List.not_mem_nil) (hall _ reached).2
  · intro name hname
    cases explained_of_expand hname with
    | missing reached stored => exact ⟨reached, injectedValue_eq_none_iff.1 stored⟩
  · intro name hname
    cases explained_of_expand hname with
    | cycle reached loop => exact ⟨reached, loop.resolve_left List.not_mem_nil⟩
  · intro fault hfault
    cases explained_of_expand hfault with
    | @missing name _ _ => exact ⟨name, .inl rfl⟩
    | @cycle name _ _ => exact ⟨name, .inr rfl⟩

/-- A diamond under a text that names its top twice, next to a name that is missing and
    one that leads back to itself. -/
theorem inject_succeeds_iff_diamond :
    let source : Dict Text := ({} : Dict Text).insertAll
      [("a".toList, "\x7b>b\x7d\x7b>c\x7d".toList), ("b".toList, "\x7b>d\x7d".toList),
        ("c".toList, "\x7b>d\x7d".toList), ("d".toList, "x".toList),
        ("e".toList, "\x7b>f\x7d".toList), ("f".toList, "\x7b>e\x7d".toList)]
    inject source "\x7b>a\x7d\x7b>a\x7d".toList = .ok ⟨"xxxx".toList, 10⟩ ∧
    (∀ name, Reached source "\x7b>a\x7d\x7b>a\x7d".toList name →
      (∃ value, source.get? name = some value ∧ value ≠ []) ∧
        ¬ Relation.TransGen (Leads source) name name) ∧
    inject source "\x7b>a\x7d\x7b>z\x7d".toList = .error (.nothingInjected "z".toList) ∧
    Reached source "\x7b>a\x7d\x7b>z\x7d".toList "z".toList ∧
    inject source "\x7b>a\x7d\x7b>e\x7d".toList = .error (.injectionCycle "e".toList) ∧
    Relation.TransGen (Leads source) "e".toList "e".toList ∧
    ∃ name, Fault.injectionCycle "e".toList = .nothingInjected name ∨
      Fault.injectionCycle "e".toList = .injectionCycle name := by
  intro source
  have hok : inject source "\x7b>a\x7d\x7b>a\x7d".toList = .ok ⟨"xxxx".toList, 10⟩ := by
    decide +kernel
  have hmissing : inject source "\x7b>a\x7d\x7b>z\x7d".toList =
      .error (.nothingInjected "z".toList) := by decide +kernel
  have hcycle : inject source "\x7b>a\x7d\x7b>e\x7d".toList =
      .error (.injectionCycle "e".toList) := by decide +kernel
  exact ⟨hok, (inject_succeeds_iff source _).1.1 ⟨_, hok⟩, hmissing,
    ((inject_succeeds_iff source _).2.1 _ hmissing).1, hcycle,
    ((inject_succeeds_iff source _).2.2.1 _ hcycle).2,
    (inject_succeeds_iff source _).2.2.2 _ hcycle⟩

end StoryTemplate
