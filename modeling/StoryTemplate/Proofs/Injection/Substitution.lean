import StoryTemplate.Proofs.Concatenation.Passes
import StoryTemplate.Proofs.Injection.Reach

/-! # Substitution — what a pass over the injections means

    The meaning of injections has neither a search nor a stack: every expression of a
    text gives way to the expansion of its stored value, and all other characters
    stay.  The expressions of a text can be taken in any order, since none overlaps
    another, so the relation splits a text at any one of them.

    Not every text has an expansion.  Where it has none there is a first obstacle from
    left to right and depth first: the text before it has an expansion, and the
    expression there has no value, or its name is one that is under expansion already,
    or the obstacle is inside its value.

    Main facts: `expand_around` (the recursion over a text splits at any expression),
    `expand_of_expands` and `expand_of_meets` (the recursion gets to what the relations
    say) and `inject_iff_expands`. -/

namespace StoryTemplate

open Pass

/-- The text comes to the second one once each of its expressions has given way to the
    expansion of its value; so many expressions are counted, with those inside the
    values. -/
inductive Expands (source : Dict Text) : Text → Text → Nat → Prop
  /-- A text without expressions stays as it is. -/
  | plain {s : Text} (idle : ∀ name, ¬ Names s name) : Expands source s s 0
  | replace {before body after name value left inner right : Text} {k m n : Nat}
      (written : IsInjection name body)
      (stored : source.get? name = some value)
      (filled : value ≠ [])
      (ahead : Expands source before left k)
      (inside : Expands source value inner m)
      (behind : Expands source after right n) :
      Expands source (before ++ '\x7b' :: (body ++ '\x7d' :: after))
        (left ++ (inner ++ right)) (k + (1 + m + n))

/-- From left to right and depth first, the fault is the first that is met in the text,
    while the values of the names in the chain are under expansion. -/
inductive Meets (source : Dict Text) : List Text → Text → Fault → Prop
  | missing {chain : List Text} {before body after name left : Text} {k : Nat}
      (written : IsInjection name body)
      (ahead : Expands source before left k)
      (absent : source.get? name = none ∨ source.get? name = some []) :
      Meets source chain (before ++ '\x7b' :: (body ++ '\x7d' :: after)) (.nothingInjected name)
  | cycle {chain : List Text} {before body after name value left : Text} {k : Nat}
      (written : IsInjection name body)
      (ahead : Expands source before left k)
      (stored : source.get? name = some value)
      (filled : value ≠ [])
      (again : name ∈ chain) :
      Meets source chain (before ++ '\x7b' :: (body ++ '\x7d' :: after)) (.injectionCycle name)
  /-- The fault is met in the value of an expression. -/
  | inside {chain : List Text} {before body after name value left : Text} {k : Nat}
      {fault : Fault}
      (written : IsInjection name body)
      (ahead : Expands source before left k)
      (stored : source.get? name = some value)
      (filled : value ≠ [])
      (fresh : name ∉ chain)
      (deeper : Meets source (name :: chain) value fault) :
      Meets source chain (before ++ '\x7b' :: (body ++ '\x7d' :: after)) fault

variable {source : Dict Text} {chain : List Text} {s t u name value : Text} {k : Nat}
  {fault : Fault}

/-! ## The recursion splits at any expression -/

/-- What an expression contributes to the expansion of a text. -/
def replacement (source : Dict Text) (chain : List Text) (name : Text) : Except Fault Pass :=
  (expandName source chain name).map fun inner => ⟨inner.text, 1 + inner.processed⟩

/-- The text before the first expression is copied. -/
theorem expand_first_replacement {found : InjectionMatch} (h : findInjection? s = some found) :
    expand source chain s = andThen (.ok ⟨found.before, 0⟩)
      (andThen (replacement source chain found.name) (expand source chain found.after)) := by
  rw [expand_first h, ← andThen_assoc, replacement]
  congr 1
  cases expandName source chain found.name with
  | error fault => rfl
  | ok inner =>
      show Except.ok (Pass.mk _ _) = Except.ok (Pass.mk _ _)
      rw [Nat.zero_add, Nat.add_comm]

/-- The recursion over a text is that over what stands before an expression, then that
    over its value, and then that over the rest. -/
theorem expand_around {before body after : Text} (hbody : IsInjection name body) :
    expand source chain (before ++ '\x7b' :: (body ++ '\x7d' :: after)) =
      andThen (expand source chain before)
        (andThen (replacement source chain name) (expand source chain after)) := by
  -- From one expression of the text before to the next.
  induction hn : before.length using Nat.strongRecOn generalizing before with
  | ind n ih =>
      subst hn
      cases hfind : findInjection? before with
      | none =>
          have hhere : findInjection? (before ++ '\x7b' :: (body ++ '\x7d' :: after)) =
              some ⟨before, name, after⟩ :=
            findInjection_some_iff.2 ⟨body, rfl, hbody, findInjection_none_iff.1 hfind⟩
          rw [expand_first_replacement hhere, expand_none hfind]
      | some found =>
          obtain ⟨body', hshape, hbody', hfirst⟩ := findInjection_some_iff.1 hfind
          have hhere : findInjection? (before ++ '\x7b' :: (body ++ '\x7d' :: after)) =
              some { found with after := found.after ++ '\x7b' :: (body ++ '\x7d' :: after) } := by
            refine findInjection_some_iff.2 ⟨body', ?_, hbody', hfirst⟩
            rw [hshape]
            simp
          rw [expand_first_replacement hhere, expand_first_replacement hfind,
            ih _ (length_lt_of_findInjection hfind) rfl, andThen_assoc, andThen_assoc]

theorem replacement_eq_ok {inner : Text} {m : Nat} (hstored : source.get? name = some value)
    (hfilled : value ≠ []) (hfresh : name ∉ chain)
    (h : expand source (name :: chain) value = .ok ⟨inner, m⟩) :
    replacement source chain name = .ok ⟨inner, 1 + m⟩ := by
  rw [replacement, expandName_enter (injectedValue_eq_some_iff.2 ⟨hstored, hfilled⟩) hfresh, h]
  rfl

/-- A fault at an expression is the fault of the text, if the text before it has an
    expansion. -/
theorem expand_around_error {before body after left : Text} (hbody : IsInjection name body)
    (hbefore : expand source chain before = .ok ⟨left, k⟩)
    (hname : expandName source chain name = .error fault) :
    expand source chain (before ++ '\x7b' :: (body ++ '\x7d' :: after)) = .error fault := by
  rw [expand_around hbody, hbefore, replacement, hname]
  rfl

/-! ## Expansions -/

namespace Expands

/-- All names in a text that has an expansion resolve. -/
theorem resolves (h : Expands source s u k) (hname : Names s name) : Resolves source name := by
  induction h generalizing name with
  | plain idle => exact absurd hname (idle name)
  | replace written stored filled _ _ _ ihAhead ihInside ihBehind =>
      rcases (names_around_iff written).1 hname with hname | rfl | hname
      · exact ihAhead hname
      · exact .intro (injectedValue_eq_some_iff.2 ⟨stored, filled⟩) fun _ => ihInside
      · exact ihBehind hname

theorem not_loop (h : Expands source s u k) (hname : Reached source s name) :
    ¬ Relation.TransGen (Leads source) name name := by
  obtain ⟨first, hfirst, hreach⟩ := hname
  exact ((h.resolves hfirst).reaches hreach).not_loop

end Expands

/-- A pass of the recursion is an expansion. -/
theorem expands_of_expand {p : Pass} (h : expand source chain s = .ok p) :
    Expands source s p.text p.processed := by
  induction chain, s using expand_induction source generalizing p with
  | plain chain s hfind =>
      rw [expand_none hfind, Except.ok.injEq] at h
      subst h
      exact .plain (findInjection_none_iff.1 hfind)
  | missing chain s found hfind hvalue =>
      rw [expand_some hfind, expandName_missing hvalue] at h
      cases h
  | cycle chain s found value hfind hvalue hcycle =>
      rw [expand_some hfind, expandName_cycle hvalue hcycle] at h
      cases h
  | enter chain s found value hfind hvalue hfresh ihv ihr =>
      rw [expand_some hfind, expandName_enter hvalue hfresh] at h
      obtain ⟨inner, hinner, h⟩ := bind_eq_ok_iff.1 h
      obtain ⟨rest, hrest, rfl⟩ := map_eq_ok_iff.1 h
      obtain ⟨body, rfl, hbody, hfirst⟩ := findInjection_some_iff.1 hfind
      obtain ⟨hstored, hfilled⟩ := injectedValue_eq_some_iff.1 hvalue
      have hall := Expands.replace hbody hstored hfilled (.plain hfirst) (ihv hinner) (ihr hrest)
      rwa [Nat.zero_add, Nat.add_comm 1] at hall

/-- The recursion comes to an expansion, if no name under expansion is reached. -/
theorem expand_of_expands (h : Expands source s u k)
    (hchain : ∀ name, Reached source s name → name ∉ chain) :
    expand source chain s = .ok ⟨u, k⟩ := by
  induction h generalizing chain with
  | plain idle => exact expand_none (findInjection_none_iff.2 idle)
  | @replace before body after name value left inner right k m n written stored filled ahead
      inside behind ihAhead ihInside ihBehind =>
      have hall := Expands.replace written stored filled ahead inside behind
      have hname : Names (before ++ '\x7b' :: (body ++ '\x7d' :: after)) name :=
        (names_around_iff written).2 (.inr (.inl rfl))
      have hloop := hall.not_loop ⟨name, hname, .refl⟩
      have hvalue := injectedValue_eq_some_iff.2 ⟨stored, filled⟩
      have hbefore : expand source chain before = .ok ⟨left, k⟩ := by
        refine ihAhead ?_
        intro next hnext
        exact hchain next (hnext.of_infix (List.prefix_append _ _).isInfix)
      have hafter : expand source chain after = .ok ⟨right, n⟩ := by
        refine ihBehind ?_
        intro next hnext
        exact hchain next (hnext.of_infix (infix_after_group before body after))
      have hinner : expand source (name :: chain) value = .ok ⟨inner, m⟩ := by
        refine ihInside ?_
        intro next hnext hmem
        have hafter := hnext.loop hvalue
        rcases List.mem_cons.1 hmem with rfl | hmem
        · exact hloop hafter
        · exact hchain next ⟨name, hname, hafter.to_reflTransGen⟩ hmem
      have hfresh : name ∉ chain := hchain name ⟨name, hname, .refl⟩
      rw [expand_around written, hbefore, replacement_eq_ok stored filled hfresh hinner, hafter]
      rfl

/-- The recursion comes to an expansion as well, if every name under expansion leads to
    all names that are reached; a name that resolves does not lead back to itself. -/
theorem Expands.expand_ahead {rest : Text} (h : Expands source s u k)
    (hchain : ∀ outer ∈ chain, ∀ name, Reached source (s ++ rest) name →
      Relation.TransGen (Leads source) outer name) :
    expand source chain s = .ok ⟨u, k⟩ := by
  refine expand_of_expands h ?_
  intro name hname hmem
  exact h.not_loop hname
    (hchain name hmem name (hname.of_infix (List.prefix_append _ _).isInfix))

/-! ## Faults -/

/-- What is met behind an expression is met in the text, if the expression has an
    expansion. -/
theorem Meets.prepend {before body after left inner : Text} {m : Nat}
    (written : IsInjection name body) (stored : source.get? name = some value)
    (filled : value ≠ []) (ahead : Expands source before left k)
    (inside : Expands source value inner m) (h : Meets source chain after fault) :
    Meets source chain (before ++ '\x7b' :: (body ++ '\x7d' :: after)) fault := by
  have hshift : ∀ front rest : Text,
      before ++ '\x7b' :: (body ++ '\x7d' :: (front ++ '\x7b' :: rest)) =
        (before ++ '\x7b' :: (body ++ '\x7d' :: front)) ++ '\x7b' :: rest := by simp
  cases h with
  | missing written' ahead' absent =>
      rw [hshift]
      exact .missing written' (.replace written stored filled ahead inside ahead') absent
  | cycle written' ahead' stored' filled' again =>
      rw [hshift]
      exact .cycle written' (.replace written stored filled ahead inside ahead') stored' filled'
        again
  | inside written' ahead' stored' filled' fresh deeper =>
      rw [hshift]
      exact .inside written' (.replace written stored filled ahead inside ahead') stored' filled'
        fresh deeper

/-- The fault of the recursion is the first that is met. -/
theorem meets_of_expand (h : expand source chain s = .error fault) :
    Meets source chain s fault := by
  induction chain, s using expand_induction source generalizing fault with
  | plain chain s hfind =>
      rw [expand_none hfind] at h
      cases h
  | missing chain s found hfind hvalue =>
      rw [expand_some hfind, expandName_missing hvalue] at h
      obtain rfl := Except.error.inj h
      obtain ⟨body, rfl, hbody, hfirst⟩ := findInjection_some_iff.1 hfind
      exact .missing hbody (.plain hfirst) (injectedValue_eq_none_iff.1 hvalue)
  | cycle chain s found value hfind hvalue hcycle =>
      rw [expand_some hfind, expandName_cycle hvalue hcycle] at h
      obtain rfl := Except.error.inj h
      obtain ⟨body, rfl, hbody, hfirst⟩ := findInjection_some_iff.1 hfind
      obtain ⟨hstored, hfilled⟩ := injectedValue_eq_some_iff.1 hvalue
      exact .cycle hbody (.plain hfirst) hstored hfilled hcycle
  | enter chain s found value hfind hvalue hfresh ihv ihr =>
      rw [expand_some hfind, expandName_enter hvalue hfresh] at h
      obtain ⟨body, rfl, hbody, hfirst⟩ := findInjection_some_iff.1 hfind
      obtain ⟨hstored, hfilled⟩ := injectedValue_eq_some_iff.1 hvalue
      rcases bind_eq_error_iff.1 h with hinner | ⟨inner, hinner, h⟩
      · exact .inside hbody (.plain hfirst) hstored hfilled hfresh (ihv hinner)
      · have hrest := map_eq_error_iff.1 h
        exact (ihr hrest).prepend hbody hstored hfilled (.plain hfirst) (expands_of_expand hinner)

/-- The recursion stops at the first fault that is met, if every name under expansion
    leads to all names that are reached. -/
theorem expand_of_meets (h : Meets source chain s fault)
    (hchain : ∀ outer ∈ chain, ∀ name, Reached source s name →
      Relation.TransGen (Leads source) outer name) :
    expand source chain s = .error fault := by
  induction h with
  | missing written ahead absent =>
      exact expand_around_error written (ahead.expand_ahead hchain)
        (expandName_missing (injectedValue_eq_none_iff.2 absent))
  | cycle written ahead stored filled again =>
      exact expand_around_error written (ahead.expand_ahead hchain)
        (expandName_cycle (injectedValue_eq_some_iff.2 ⟨stored, filled⟩) again)
  | @inside chain before body after name value left k fault written ahead stored filled fresh
      deeper ih =>
      have hvalue := injectedValue_eq_some_iff.2 ⟨stored, filled⟩
      have hname : Names (before ++ '\x7b' :: (body ++ '\x7d' :: after)) name :=
        (names_around_iff written).2 (.inr (.inl rfl))
      refine expand_around_error written (ahead.expand_ahead hchain) ?_
      rw [expandName_enter hvalue fresh]
      refine ih ?_
      intro outer houter next hnext
      have hlater := hnext.loop hvalue
      rcases List.mem_cons.1 houter with rfl | houter
      · exact hlater
      · exact (hchain outer houter name ⟨name, hname, .refl⟩).trans hlater

/-! ## Passes -/

/-- A pass over the injections of a text comes to the expansion of the text and counts
    its expressions; and it fails with the first fault that is met, where an expression
    is looked at for a missing or empty value before it is looked at for a cycle. -/
theorem inject_iff_expands (source : Dict Text) (t : Text) :
    (∀ p, inject source t = .ok p ↔ Expands source t p.text p.processed) ∧
    ∀ fault, inject source t = .error fault ↔ Meets source [] t fault := by
  rw [inject_eq]
  constructor
  · intro p
    constructor
    · exact expands_of_expand
    · intro h
      exact expand_of_expands h fun _ _ => List.not_mem_nil
  · intro fault
    constructor
    · exact meets_of_expand
    · intro h
      refine expand_of_meets h ?_
      intro outer houter
      cases houter

/-- A value is expanded inside a value and again by itself, behind a brace of no
    expression; a cycle is met before a missing value that stands behind it, and an empty
    value before the cycle. -/
theorem inject_iff_expands_order :
    let source : Dict Text := ({} : Dict Text).insertAll
      [("a".toList, "-\x7b>b\x7d-".toList), ("b".toList, "x".toList),
        ("e".toList, "\x7b>b\x7d\x7b>f\x7d".toList), ("f".toList, "\x7b>e\x7d".toList),
        ("v".toList, [])]
    Expands source "\x7b\x7b>a\x7d\x7b> b \x7d".toList "\x7b-x-x".toList 3 ∧
    Meets source [] "\x7b>a\x7d\x7b>e\x7d\x7b>z\x7d".toList (.injectionCycle "e".toList) ∧
    Meets source [] "\x7b>v\x7d\x7b>e\x7d".toList (.nothingInjected "v".toList) := by
  intro source
  have hok : inject source "\x7b\x7b>a\x7d\x7b> b \x7d".toList =
      .ok ⟨"\x7b-x-x".toList, 3⟩ := by decide +kernel
  have hcycle : inject source "\x7b>a\x7d\x7b>e\x7d\x7b>z\x7d".toList =
      .error (.injectionCycle "e".toList) := by decide +kernel
  have hempty : inject source "\x7b>v\x7d\x7b>e\x7d".toList =
      .error (.nothingInjected "v".toList) := by decide +kernel
  exact ⟨((inject_iff_expands source _).1 _).1 hok, ((inject_iff_expands source _).2 _).1 hcycle,
    ((inject_iff_expands source _).2 _).1 hempty⟩

end StoryTemplate
