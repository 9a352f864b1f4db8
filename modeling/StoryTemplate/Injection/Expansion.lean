import StoryTemplate.Dict
import StoryTemplate.Injection.Expression
import StoryTemplate.Pass

/-! # Expansion — putting injected values into a text

    One pass replaces every injection expression of a text by the value of the
    injection, and the expressions inside a value in the same pass, depth first.
    The work is a stack of frames: the text itself at the bottom and above it
    the values under expansion, each with what is still to be copied of it.  An
    injection that is named while its own value is under expansion is a cycle.

    An expression that only forms where a value meets the text around it is left
    for a later pass.

    Main facts: `Valid.step` (the names under expansion are distinct, each has
    its value in the source, and the frames stand on one another in their
    order) and `weight_step_lt` (so the work decreases and the pass ends). -/

namespace StoryTemplate

/-! ## The work stack -/

/-- A set of names. -/
abbrev NameSet := Dict Unit

/-- The value that an injection expression stands for; an empty value is none. -/
def injectedValue? (source : Dict Text) (name : Text) : Option Text :=
  (source.get? name).filter (· ≠ [])

/-- A text under expansion. -/
structure Frame where
  text : Text
  /-- What is still to be copied of the text. -/
  rest : Text
  deriving DecidableEq, Repr

/-- The state of an expansion. -/
structure Expansion where
  /-- Innermost first. -/
  frames : List Frame
  /-- The names whose values are the frames above the lowest one, innermost
      first. -/
  chain : List Text
  /-- The names of the chain, for the cycle check. -/
  expanding : NameSet
  output : Array Char
  processed : Nat

namespace Expansion

/-- Before anything is copied. -/
def start (s : Text) : Expansion := ⟨[⟨s, s⟩], [], ∅, #[], 0⟩

/-- Copies the innermost frame up to its next injection expression and opens a
    frame for the value, or copies the frame to its end and closes it.  There is
    no next state once all frames are closed. -/
def step (source : Dict Text) (state : Expansion) : Except Fault (Option Expansion) :=
  match state.frames with
  | [] => .ok none
  | frame :: outer =>
    match findInjection? frame.rest with
    | none => .ok <| some
        { state with
          frames := outer
          chain := state.chain.drop 1
          expanding := state.chain.head?.elim state.expanding state.expanding.erase
          output := state.output ++ frame.rest }
    | some found =>
      match injectedValue? source found.name with
      | none => .error (.nothingInjected found.name)
      | some value =>
        if state.expanding.contains found.name then .error (.injectionCycle found.name)
        else .ok <| some
          { frames := ⟨value, value⟩ :: { frame with rest := found.after } :: outer
            chain := found.name :: state.chain
            expanding := state.expanding.insert found.name ()
            output := state.output ++ found.before
            processed := state.processed + 1 }

/-! ## What holds throughout -/

/-- The frames stand on one another: the lowest is the text of the pass, and
    each one above it is the value of the name at its place in the chain, of
    which some end is still to be copied. -/
inductive Stacked (source : Dict Text) : List Frame → List Text → Prop
  | closed : Stacked source [] []
  | lowest (frame : Frame) : Stacked source [frame] []
  | above {frame below : Frame} {outer : List Frame} {name : Text} {chain : List Text}
      (value : injectedValue? source name = some frame.text)
      (rest : frame.rest <:+ frame.text)
      (under : Stacked source (below :: outer) chain) :
      Stacked source (frame :: below :: outer) (name :: chain)

/-- The states that an expansion can reach. -/
structure Valid (source : Dict Text) (state : Expansion) : Prop where
  stacked : Stacked source state.frames state.chain
  nodup : state.chain.Nodup
  expanding_iff : ∀ name, state.expanding.contains name ↔ name ∈ state.chain

theorem valid_start (source : Dict Text) (s : Text) : (start s).Valid source :=
  ⟨.lowest _, .nil, by simp [start, Dict.contains]⟩

/-- How much of the innermost frame is copied does not matter. -/
theorem Stacked.copied {source : Dict Text} {frame : Frame} {outer : List Frame}
    {chain : List Text} (h : Stacked source (frame :: outer) chain) {rest : Text}
    (hrest : rest <:+ frame.rest) :
    Stacked source ({ frame with rest := rest } :: outer) chain := by
  cases h with
  | lowest => exact .lowest _
  | above value suffix under => exact .above value (hrest.trans suffix) under

/-- Every step keeps the state valid. -/
theorem Valid.step {source : Dict Text} {state next : Expansion} (h : state.Valid source)
    (hstep : state.step source = .ok (some next)) : next.Valid source := by
  obtain ⟨stacked, nodup, expanding⟩ := h
  obtain ⟨frames, chain, names, output, processed⟩ := state
  simp only at stacked nodup expanding
  unfold Expansion.step at hstep
  simp only at hstep
  split at hstep
  · simp at hstep
  · rename_i frame outer
    split at hstep
    · simp only [Except.ok.injEq, Option.some.injEq] at hstep
      subst hstep
      cases stacked with
      | lowest => exact ⟨.closed, .nil, by simpa using expanding⟩
      | above value suffix under =>
        rename_i below outer name chain
        rw [List.nodup_cons] at nodup
        refine ⟨under, nodup.2, fun n => ?_⟩
        have hn := expanding n
        simp only [Dict.contains, List.mem_cons] at hn
        simp only [List.head?_cons, Option.elim_some, Dict.contains, Dict.get?_erase,
          List.drop_one, List.tail_cons]
        split
        · rename_i heq
          subst heq
          simpa using nodup.1
        · rename_i hne
          rw [hn]
          exact or_iff_right hne
    · rename_i found hfound
      split at hstep
      · simp at hstep
      · rename_i value hvalue
        split at hstep
        · simp at hstep
        · rename_i hfresh
          simp only [Except.ok.injEq, Option.some.injEq] at hstep
          subst hstep
          refine ⟨.above hvalue (List.suffix_refl _)
            (stacked.copied (suffix_of_findInjection hfound)), ?_, fun n => ?_⟩
          · rw [List.nodup_cons]
            exact ⟨fun hmem => hfresh ((expanding _).2 hmem), nodup⟩
          · have hn := expanding n
            simp only [Dict.contains] at hn
            simp only [Dict.contains, Dict.get?_insert, List.mem_cons]
            split
            · rename_i heq
              simp [heq]
            · rename_i hne
              rw [hn]
              exact (or_iff_right hne).symm

/-! ## Termination -/

/-- A list without duplicates is no longer than a list that holds all its
    members. -/
theorem length_le_of_nodup {α : Type} [DecidableEq α] {xs ys : List α} (hx : xs.Nodup)
    (h : ∀ x ∈ xs, x ∈ ys) : xs.length ≤ ys.length := by
  induction xs generalizing ys with
  | nil => exact Nat.zero_le _
  | cons x xs ih =>
    rw [List.nodup_cons] at hx
    have hmem := h x (.head _)
    have : xs.length ≤ (ys.erase x).length := ih hx.2 fun y hy =>
      (List.mem_erase_of_ne fun heq : y = x => hx.1 (heq ▸ hy)).2 (h y (.tail _ hy))
    rw [List.length_erase_of_mem hmem] at this
    have := List.length_pos_of_mem hmem
    simp only [List.length_cons]
    omega

theorem mem_names_of_injectedValue {source : Dict Text} {name value : Text}
    (h : injectedValue? source name = some value) : name ∈ source.names :=
  Dict.mem_names_iff.2 ⟨value, (Option.filter_eq_some_iff.1 h).1⟩

theorem Stacked.mem_names {source : Dict Text} {frames : List Frame} {chain : List Text}
    (h : Stacked source frames chain) : ∀ name ∈ chain, name ∈ source.names := by
  induction h with
  | closed => simp
  | lowest => simp
  | above value rest under ih =>
    intro n hn
    rcases List.mem_cons.1 hn with rfl | hn
    · exact mem_names_of_injectedValue value
    · exact ih n hn

theorem Stacked.length_outer {source : Dict Text} {frame : Frame} {outer : List Frame}
    {chain : List Text} (h : Stacked source (frame :: outer) chain) :
    outer.length = chain.length := by
  generalize hf : frame :: outer = frames at h
  induction h generalizing frame outer with
  | closed => simp at hf
  | lowest => simp_all
  | above value rest under ih =>
    have := ih rfl
    simp_all

/-- The names under expansion are distinct names of the source. -/
theorem Valid.length_chain_le {source : Dict Text} {state : Expansion} (h : state.Valid source) :
    state.chain.length ≤ source.size := by
  have hlen := length_le_of_nodup h.nodup h.stacked.mem_names
  rwa [Dict.names, List.length_map] at hlen

/-- The length of the longest value. -/
def longest (source : Dict Text) : Nat :=
  source.entries.foldr (fun entry longest => max entry.2.length longest) 0

theorem length_le_longest {source : Dict Text} {name value : Text}
    (h : injectedValue? source name = some value) : value.length ≤ longest source := by
  have hmem := Dict.get?_eq_some_iff.1 (Option.filter_eq_some_iff.1 h).1
  unfold longest
  generalize source.entries = entries at hmem
  induction entries with
  | nil => simp at hmem
  | cons entry rest ih =>
    rcases List.mem_cons.1 hmem with rfl | hmem
    · exact Nat.le_max_left _ _
    · exact Nat.le_trans (ih hmem) (Nat.le_max_right _ _)

/-- The work that a stack of frames still holds: a character of a frame weighs
    more than a whole value in the frame above. -/
def weightOf (base size : Nat) : List Frame → Nat
  | [] => 0
  | frame :: outer =>
    (frame.rest.length + 1) * Nat.pow base (size - outer.length) + weightOf base size outer

/-- The work that an expansion still has to do. -/
def weight (source : Dict Text) (state : Expansion) : Nat :=
  weightOf (longest source + 2) source.size state.frames

/-- Every step leaves less work. -/
theorem weight_step_lt {source : Dict Text} {state next : Expansion} (h : state.Valid source)
    (hstep : state.step source = .ok (some next)) : next.weight source < state.weight source := by
  have hnext := h.step hstep
  have hbase : 0 < longest source + 2 := by omega
  obtain ⟨frames, chain, names, output, processed⟩ := state
  unfold Expansion.step at hstep
  simp only at hstep
  split at hstep
  · simp at hstep
  · rename_i frame outer
    split at hstep
    · simp only [Except.ok.injEq, Option.some.injEq] at hstep
      subst hstep
      have : 0 < (frame.rest.length + 1) * Nat.pow (longest source + 2) (source.size - outer.length) :=
        Nat.mul_pos (Nat.succ_pos _) (Nat.pow_pos hbase)
      simp only [weight, weightOf]
      omega
    · rename_i found hfound
      split at hstep
      · simp at hstep
      · rename_i value hvalue
        split at hstep
        · simp at hstep
        · simp only [Except.ok.injEq, Option.some.injEq] at hstep
          subst hstep
          have hdepth : outer.length + 1 ≤ source.size := by
            have hlen := hnext.length_chain_le
            have houter := h.stacked.length_outer
            simp only [List.length_cons] at hlen houter
            omega
          obtain ⟨depth, hsize⟩ : ∃ depth, source.size = depth + 1 + outer.length :=
            ⟨source.size - (outer.length + 1), by omega⟩
          have hrest := length_lt_of_findInjection hfound
          have hvlen := length_le_longest hvalue
          simp only [weight, weightOf, hsize, List.length_cons]
          rw [show depth + 1 + outer.length - (outer.length + 1) = depth by omega,
            show depth + 1 + outer.length - outer.length = depth + 1 by omega]
          -- The new frame weighs less than the expression did in the frame below.
          have hpow : 0 < Nat.pow (longest source + 2) depth := Nat.pow_pos hbase
          have hvalueWeight : (value.length + 1) * Nat.pow (longest source + 2) depth <
              Nat.pow (longest source + 2) (depth + 1) := by
            rw [Nat.mul_comm]
            exact Nat.mul_lt_mul_of_pos_left (by omega) hpow
          have hrestWeight : (found.after.length + 1) * Nat.pow (longest source + 2) (depth + 1) +
              Nat.pow (longest source + 2) (depth + 1) ≤
              (frame.rest.length + 1) * Nat.pow (longest source + 2) (depth + 1) := by
            rw [← Nat.succ_mul]
            exact Nat.mul_le_mul_right _ (by omega)
          omega

/-- Carries an expansion to its end. -/
def run (source : Dict Text) (state : Expansion) (valid : state.Valid source) : Except Fault Pass :=
  match h : state.step source with
  | .error fault => .error fault
  | .ok none => .ok ⟨state.output.toList, state.processed⟩
  | .ok (some next) => run source next (valid.step h)
termination_by state.weight source
decreasing_by exact weight_step_lt valid h

end Expansion

/-- Replaces every injection expression of the text by its value, and those in
    the values in the same pass.  The first expression that cannot be replaced
    is the fault: its injection is missing or empty, or else under expansion. -/
def inject (source : Dict Text) (s : Text) : Except Fault Pass :=
  (Expansion.start s).run source (Expansion.valid_start source s)

end StoryTemplate
