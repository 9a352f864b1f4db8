import StoryTemplate.Proofs.Injection.Expanding

/-! # Injection by recursion — every value as a text of its own

    A pass over the injections of a text works on a stack of half-copied frames,
    with the names under expansion kept beside it.  This file has the plain
    reading: a text is what stands before its first expression, the value of the
    expression expanded as a text of its own, and the rest expanded likewise.  The
    names under expansion are an argument; a value is expanded with one more.

    The recursion ends because each value is entered with a name fewer left to
    enter, and each rest is shorter.

    Main facts: `delivers_expand` (a frame on the stack contributes what its text
    comes to by itself, and then the frames below it are copied) and `inject_eq` (so
    a pass is the recursion). -/

namespace StoryTemplate

/-- The names of the source that are not under expansion. -/
def freshNames (source : Dict Text) (chain : List Text) : List Text :=
  source.names.filter (· ∉ chain)

/-- A name that is entered is fresh no more. -/
theorem length_freshNames_lt {source : Dict Text} {chain : List Text} {name : Text}
    (hname : name ∈ source.names) (hfresh : name ∉ chain) :
    (freshNames source (name :: chain)).length < (freshNames source chain).length := by
  have hfilter : freshNames source (name :: chain) =
      (freshNames source chain).filter (· ≠ name) := by
    rw [freshNames, freshNames, List.filter_filter]
    refine List.filter_congr fun n _ => ?_
    simp [not_or]
  rw [hfilter, List.length_filter_lt_length_iff_exists]
  exact ⟨name, List.mem_filter.2 ⟨hname, by simpa using hfresh⟩, by simp⟩

/-- The injections of a text put in from left to right, each value and each rest
    expanded as a text of its own; the chain holds the names under expansion. -/
def expand (source : Dict Text) (chain : List Text) (s : Text) : Except Fault Pass :=
  match _h : findInjection? s with
  | none => .ok ⟨s, 0⟩
  | some found =>
      match _hv : injectedValue? source found.name with
      | none => .error (.nothingInjected found.name)
      | some value =>
          if _hc : found.name ∈ chain then .error (.injectionCycle found.name)
          else
            match expand source (found.name :: chain) value with
            | .error fault => .error fault
            | .ok inner =>
                (expand source chain found.after).map fun rest =>
                  ⟨found.before ++ (inner.text ++ rest.text),
                    inner.processed + 1 + rest.processed⟩
termination_by ((freshNames source chain).length, s.length)
decreasing_by
  · exact .left _ _ (length_freshNames_lt (Expansion.mem_names_of_injectedValue _hv) _hc)
  · exact .right _ (length_lt_of_findInjection _h)

/-- What stands in for an expression with the name. -/
def expandName (source : Dict Text) (chain : List Text) (name : Text) : Except Fault Pass :=
  match injectedValue? source name with
  | none => .error (.nothingInjected name)
  | some value =>
      if name ∈ chain then .error (.injectionCycle name) else expand source (name :: chain) value

variable {source : Dict Text} {chain : List Text} {s t : Text}

theorem expand_none (h : findInjection? s = none) : expand source chain s = .ok ⟨s, 0⟩ := by
  rw [expand]
  split
  · rfl
  · rename_i hsome
    rw [h] at hsome
    exact nomatch hsome

/-- The first expression of a text gives way to what its name stands for, and the
    rest is expanded likewise. -/
theorem expand_some {found : InjectionMatch} (h : findInjection? s = some found) :
    expand source chain s = (expandName source chain found.name).bind fun inner =>
      (expand source chain found.after).map fun rest =>
        ⟨found.before ++ (inner.text ++ rest.text), inner.processed + 1 + rest.processed⟩ := by
  rw [expand, expandName]
  split
  · rename_i hnone
    rw [h] at hnone
    exact nomatch hnone
  · rename_i hsome
    rw [h, Option.some.injEq] at hsome
    subst hsome
    split
    · rename_i hvalue
      rw [hvalue]
      rfl
    · rename_i value hvalue
      rw [hvalue]
      dsimp only
      by_cases hcycle : found.name ∈ chain
      · rw [dif_pos hcycle, if_pos hcycle]
        rfl
      · rw [dif_neg hcycle, if_neg hcycle]
        cases expand source (found.name :: chain) value with
        | error fault => rfl
        | ok inner => rfl

/-- Induction on an expansion: over the value of the first expression, if it has one
    that is not under expansion, and over the rest. -/
theorem expand_induction (source : Dict Text) {motive : List Text → Text → Prop}
    (plain : ∀ chain s, findInjection? s = none → motive chain s)
    (missing : ∀ chain s found, findInjection? s = some found →
      injectedValue? source found.name = none → motive chain s)
    (cycle : ∀ chain s found value, findInjection? s = some found →
      injectedValue? source found.name = some value → found.name ∈ chain → motive chain s)
    (enter : ∀ chain s found value, findInjection? s = some found →
      injectedValue? source found.name = some value → found.name ∉ chain →
      motive (found.name :: chain) value → motive chain found.after → motive chain s)
    (chain : List Text) (s : Text) : motive chain s := by
  cases hfind : findInjection? s with
  | none => exact plain chain s hfind
  | some found =>
      cases hvalue : injectedValue? source found.name with
      | none => exact missing chain s found hfind hvalue
      | some value =>
          by_cases hcycle : found.name ∈ chain
          · exact cycle chain s found value hfind hvalue hcycle
          · exact enter chain s found value hfind hvalue hcycle
              (expand_induction source plain missing cycle enter (found.name :: chain) value)
              (expand_induction source plain missing cycle enter chain found.after)
termination_by ((freshNames source chain).length, s.length)
decreasing_by
  · exact .left _ _ (length_freshNames_lt (Expansion.mem_names_of_injectedValue hvalue) hcycle)
  · exact .right _ (length_lt_of_findInjection hfind)

theorem expandName_missing {name : Text} (h : injectedValue? source name = none) :
    expandName source chain name = .error (.nothingInjected name) := by
  rw [expandName, h]

theorem expandName_cycle {name value : Text} (h : injectedValue? source name = some value)
    (hcycle : name ∈ chain) : expandName source chain name = .error (.injectionCycle name) := by
  rw [expandName, h]
  exact if_pos hcycle

theorem expandName_enter {name value : Text} (h : injectedValue? source name = some value)
    (hfresh : name ∉ chain) :
    expandName source chain name = expand source (name :: chain) value := by
  rw [expandName, h]
  exact if_neg hfresh

/-! ## The stack does the recursion -/

namespace Expansion

variable {state next : Expansion}

/-- What an expansion comes to: with a pass it goes on at a state made from the pass,
    with a fault it ends at a state that has this fault. -/
def Delivers (source : Dict Text) (state : Expansion) (next : Pass → Expansion) :
    Except Fault Pass → Prop
  | .ok p => Reaches source state (next p)
  | .error fault => ∃ last, Reaches source state last ∧ last.step source = .error fault

theorem Delivers.head {first : Expansion} {next : Pass → Expansion} {result : Except Fault Pass}
    (hstep : state.step source = .ok (some first)) (h : Delivers source first next result) :
    Delivers source state next result := by
  cases result with
  | ok p => exact Relation.ReflTransGen.head hstep h
  | error fault =>
      obtain ⟨last, hlast, hfault⟩ := h
      exact ⟨last, Relation.ReflTransGen.head hstep hlast, hfault⟩

/-- One expansion after another. -/
theorem Delivers.bind {next : Pass → Expansion} {result : Except Fault Pass}
    (h : Delivers source state next result) {after : Pass → Expansion}
    {rest : Pass → Except Fault Pass}
    (hrest : ∀ p, Delivers source (next p) after (rest p)) :
    Delivers source state after (result.bind rest) := by
  cases result with
  | error fault => exact h
  | ok p =>
      show Delivers source state after (rest p)
      have hp := hrest p
      cases hresult : rest p with
      | ok q =>
          rw [hresult] at hp
          exact h.trans hp
      | error fault =>
          rw [hresult] at hp
          obtain ⟨last, hlast, hfault⟩ := hp
          exact ⟨last, h.trans hlast, hfault⟩

theorem Delivers.map {next : Pass → Expansion} {result : Except Fault Pass} {f : Pass → Pass}
    (h : Delivers source state (fun p => next (f p)) result) :
    Delivers source state next (result.map f) := by
  cases result with
  | ok p => exact h
  | error fault => exact h

/-- The set of names holds those of the chain. -/
def Tells (expanding : NameSet) (chain : List Text) : Prop :=
  ∀ name, expanding.contains name = true ↔ name ∈ chain

theorem Tells.enter {expanding : NameSet} {chain : List Text} (h : Tells expanding chain)
    (name : Text) : Tells (expanding.insert name ()) (name :: chain) := by
  intro n
  rw [List.mem_cons, ← h n, Dict.contains, Dict.contains, Dict.get?_insert]
  by_cases hn : n = name <;> simp [hn]

/-- Closing the frame of a name gives the set back as it was before. -/
theorem erase_insert {expanding : NameSet} {name : Text}
    (h : ¬ expanding.contains name = true) : (expanding.insert name ()).erase name = expanding := by
  refine Dict.ext_get? fun n => ?_
  rw [Dict.get?_erase, Dict.get?_insert]
  by_cases hn : n = name
  · rw [if_pos hn, hn]
    exact (Option.not_isSome_iff_eq_none.1 h).symm
  · rw [if_neg hn, if_neg hn]

/-- A frame on the stack contributes what its text comes to by itself; then the
    frames below it are copied. -/
theorem delivers_expand (frame : Frame) (outer : List Frame) (chain : List Text)
    (expanding : NameSet) (htells : Tells expanding chain) (output : Array Char)
    (processed : Nat) :
    Delivers source ⟨frame :: outer, chain, expanding, output, processed⟩
      (fun p => ⟨outer, chain.drop 1, chain.head?.elim expanding expanding.erase,
        output ++ p.text, processed + p.processed⟩) (expand source chain frame.rest) := by
  generalize hs : frame.rest = s
  induction chain, s using expand_induction source
    generalizing frame outer expanding output processed with
  | plain chain s hfind =>
      rw [expand_none hfind]
      subst hs
      refine Relation.ReflTransGen.single ?_
      rw [step]
      dsimp only
      rw [hfind]
      rfl
  | missing chain s found hfind hvalue =>
      rw [expand_some hfind, expandName_missing hvalue]
      subst hs
      refine ⟨_, .refl, ?_⟩
      rw [step]
      dsimp only
      rw [hfind]
      dsimp only
      rw [hvalue]
  | cycle chain s found value hfind hvalue hcycle =>
      rw [expand_some hfind, expandName_cycle hvalue hcycle]
      subst hs
      refine ⟨_, .refl, ?_⟩
      rw [step]
      dsimp only
      rw [hfind]
      dsimp only
      rw [hvalue]
      exact if_pos ((htells found.name).2 hcycle)
  | enter chain s found value hfind hvalue hfresh ihv ihr =>
      rw [expand_some hfind, expandName_enter hvalue hfresh]
      subst hs
      have hnew : ¬ expanding.contains found.name = true := fun h => hfresh ((htells _).1 h)
      -- The value is opened, expanded and closed; then the rest of the frame is copied.
      have hstep : step source ⟨frame :: outer, chain, expanding, output, processed⟩ =
          .ok (some ⟨⟨value, value⟩ :: { frame with rest := found.after } :: outer,
            found.name :: chain, expanding.insert found.name (), output ++ found.before,
            processed + 1⟩) := by
        rw [step]
        dsimp only
        rw [hfind]
        dsimp only
        rw [hvalue]
        exact if_neg hnew
      refine .head hstep ((ihv ⟨value, value⟩ _ _ (htells.enter _) _ _ rfl).bind fun inner => ?_)
      refine .map ?_
      have hrest := ihr { frame with rest := found.after } outer expanding htells
        (output ++ found.before ++ inner.text) (processed + 1 + inner.processed) rfl
      have hclosed : (found.name :: chain).head?.elim (expanding.insert found.name ())
          (expanding.insert found.name ()).erase = expanding := erase_insert hnew
      have hcopied : ∀ rest : Text, output ++ (found.before ++ (inner.text ++ rest)) =
          output ++ found.before ++ inner.text ++ rest := by
        intro rest
        apply Array.ext'
        simp
      have hcount : ∀ n, processed + (inner.processed + 1 + n) =
          processed + 1 + inner.processed + n := by
        intro n
        omega
      rw [hclosed]
      simp only [hcopied, hcount]
      exact hrest

/-- A run that gets to a state ends as a run from there. -/
theorem run_of_reaches (h : Reaches source state next) (valid : state.Valid source) :
    ∃ valid' : next.Valid source, state.run source valid = next.run source valid' := by
  induction h using Relation.ReflTransGen.head_induction_on with
  | refl => exact ⟨valid, rfl⟩
  | @head state first hstep _ ih =>
      obtain ⟨valid', hrun⟩ := ih (valid.step hstep)
      refine ⟨valid', ?_⟩
      rw [← hrun, run]
      split <;> rename_i h <;> rw [hstep] at h
      · cases h
      · cases h
      · obtain rfl := Option.some.inj (Except.ok.inj h)
        rfl

end Expansion

/-- A pass over the injections of a text expands every value and every rest as a text
    of its own. -/
theorem inject_eq (source : Dict Text) (s : Text) : inject source s = expand source [] s := by
  have hall := @Expansion.delivers_expand source ⟨s, s⟩ [] [] ∅
    (fun name => by simp [Dict.contains]) #[] 0
  rw [inject]
  cases hresult : expand source [] s with
  | ok p =>
      rw [hresult] at hall
      obtain ⟨valid, hrun⟩ := Expansion.run_of_reaches hall (Expansion.valid_start source s)
      refine hrun.trans ?_
      rw [Expansion.run]
      simp [Expansion.step]
  | error fault =>
      rw [hresult] at hall
      obtain ⟨last, hlast, hfault⟩ := hall
      obtain ⟨valid, hrun⟩ := Expansion.run_of_reaches hlast (Expansion.valid_start source s)
      refine hrun.trans ?_
      rw [Expansion.run]
      split <;> rename_i h <;> rw [hfault] at h
      · rw [Except.error.injEq] at h
        rw [h]
      · cases h
      · cases h

end StoryTemplate
