import Mathlib.Data.List.Chain
import Mathlib.Logic.Relation
import StoryTemplate.Proofs.Injection.Parallel

/-! # Expanding — what a depth-first pass does

    A pass keeps a stack of frames, and what is written so far together with what
    is still to be copied is always a text that the text of the pass can be
    rewritten to.  The names under expansion lead to one another, so a cycle is
    a text that is rewritten for ever.

    Main facts: `inject_steps` (a pass is as many steps as it replaces
    expressions), `exists_inject` (it succeeds if there is any way to a text
    without expressions), `inject_idle_iff` (it replaces nothing exactly if there is
    nothing to replace) and `inject_ahead` (it gets at least as far as a plain pass). -/

namespace StoryTemplate
namespace Expansion

variable {source : Dict Text} {t : Text} {state next : Expansion}

/-! ## Runs -/

/-- The second state comes after the first in an expansion. -/
def Reaches (source : Dict Text) : Expansion → Expansion → Prop :=
  Relation.ReflTransGen fun a b => a.step source = .ok (some b)

/-- What holds at first and is kept by every step holds at every state reached. -/
theorem Reaches.invariant {P : Expansion → Prop}
    (hstep : ∀ {a b : Expansion}, P a → a.step source = .ok (some b) → P b)
    (h : Reaches source state next) (hstate : P state) : P next := by
  induction h with
  | refl => exact hstate
  | tail _ hlast ih => exact hstep ih hlast

/-- A run ends with a state that has no next one. -/
theorem exists_of_run (state : Expansion) (valid : state.Valid source) :
    ∃ last, Reaches source state last ∧
      ((last.step source = .ok none ∧
          state.run source valid = .ok ⟨last.output.toList, last.processed⟩) ∨
        ∃ fault, last.step source = .error fault ∧ state.run source valid = .error fault) := by
  fun_induction state.run source valid with
  | case1 state valid fault h => exact ⟨state, .refl, .inr ⟨fault, h, rfl⟩⟩
  | case2 state valid h => exact ⟨state, .refl, .inl ⟨h, rfl⟩⟩
  | case3 state valid next h ih =>
      obtain ⟨last, hlast, hend⟩ := ih
      exact ⟨last, .head h hlast, hend⟩

/-! ## Steps -/

/-- After the innermost frame is copied to its end. -/
def leave (state : Expansion) (frame : Frame) (outer : List Frame) : Expansion :=
  { state with
    frames := outer
    chain := state.chain.drop 1
    expanding := state.chain.head?.elim state.expanding state.expanding.erase
    output := state.output ++ frame.rest }

/-- After the value of an expression in the innermost frame is opened. -/
def enter (state : Expansion) (frame : Frame) (outer : List Frame) (found : InjectionMatch)
    (value : Text) : Expansion where
  frames := ⟨value, value⟩ :: { frame with rest := found.after } :: outer
  chain := found.name :: state.chain
  expanding := state.expanding.insert found.name ()
  output := state.output ++ found.before
  processed := state.processed + 1

/-- The ways in which a step can come out. -/
inductive Outcome (source : Dict Text) (state : Expansion) :
    Except Fault (Option Expansion) → Prop
  | finished (frames : state.frames = []) : Outcome source state (.ok none)
  | leave {frame : Frame} {outer : List Frame} (frames : state.frames = frame :: outer)
      (plain : findInjection? frame.rest = none) :
      Outcome source state (.ok (some (state.leave frame outer)))
  | missing {frame : Frame} {outer : List Frame} {found : InjectionMatch}
      (frames : state.frames = frame :: outer) (here : findInjection? frame.rest = some found)
      (stored : injectedValue? source found.name = none) :
      Outcome source state (.error (.nothingInjected found.name))
  | cycle {frame : Frame} {outer : List Frame} {found : InjectionMatch} {value : Text}
      (frames : state.frames = frame :: outer) (here : findInjection? frame.rest = some found)
      (stored : injectedValue? source found.name = some value)
      (again : state.expanding.contains found.name = true) :
      Outcome source state (.error (.injectionCycle found.name))
  | enter {frame : Frame} {outer : List Frame} {found : InjectionMatch} {value : Text}
      (frames : state.frames = frame :: outer) (here : findInjection? frame.rest = some found)
      (stored : injectedValue? source found.name = some value)
      (fresh : ¬ state.expanding.contains found.name = true) :
      Outcome source state (.ok (some (state.enter frame outer found value)))

theorem outcome (source : Dict Text) (state : Expansion) :
    Outcome source state (state.step source) := by
  obtain ⟨frames, chain, expanding, output, processed⟩ := state
  rw [step]
  cases frames with
  | nil => exact .finished rfl
  | cons frame outer =>
      dsimp only
      cases hfind : findInjection? frame.rest with
      | none => exact .leave rfl hfind
      | some found =>
          dsimp only
          cases hvalue : injectedValue? source found.name with
          | none => exact .missing rfl hfind hvalue
          | some value =>
              dsimp only
              by_cases hcycle : expanding.contains found.name = true
              · rw [if_pos hcycle]
                exact .cycle rfl hfind hvalue hcycle
              · rw [if_neg hcycle]
                exact .enter rfl hfind hvalue hcycle

/-- The two ways in which an expansion goes on. -/
theorem step_cases (h : state.step source = .ok (some next)) :
    (∃ frame outer, state.frames = frame :: outer ∧ findInjection? frame.rest = none ∧
      next = state.leave frame outer) ∨
    ∃ frame outer found value, state.frames = frame :: outer ∧
      findInjection? frame.rest = some found ∧
      injectedValue? source found.name = some value ∧
      next = state.enter frame outer found value := by
  have hout := outcome source state
  rw [h] at hout
  cases hout with
  | leave frames plain => exact .inl ⟨_, _, frames, plain, rfl⟩
  | enter frames here stored fresh => exact .inr ⟨_, _, _, _, frames, here, stored, rfl⟩

/-- An expansion is over when all frames are closed. -/
theorem frames_of_step (h : state.step source = .ok none) : state.frames = [] := by
  have hout := outcome source state
  rw [h] at hout
  cases hout with
  | finished frames => exact frames

/-! ## An expansion rewrites its text -/

/-- What is still to be copied of all frames. -/
def pendingText (frames : List Frame) : Text := frames.flatMap Frame.rest

/-- The text that is written so far with what is still to be copied. -/
def wholeText (state : Expansion) : Text := state.output.toList ++ pendingText state.frames

theorem wholeText_of_frames {frame : Frame} {outer : List Frame}
    (h : state.frames = frame :: outer) :
    state.wholeText = state.output.toList ++ (frame.rest ++ pendingText outer) := by
  rw [wholeText, h]
  rfl

theorem wholeText_leave {frame : Frame} {outer : List Frame}
    (h : state.frames = frame :: outer) : (state.leave frame outer).wholeText = state.wholeText := by
  rw [wholeText_of_frames h, ← List.append_assoc]
  show (state.output ++ frame.rest).toList ++ pendingText outer = _
  rw [Array.toList_appendList]

/-- Opening a value rewrites the text. -/
theorem rewrites_enter {frame : Frame} {outer : List Frame} {found : InjectionMatch}
    {value : Text} (h : state.frames = frame :: outer)
    (hfind : findInjection? frame.rest = some found)
    (hvalue : injectedValue? source found.name = some value) :
    Rewrites source state.wholeText (state.enter frame outer found value).wholeText := by
  obtain ⟨body, hshape, hbody⟩ := exists_of_findInjection hfind
  refine ⟨state.output.toList ++ found.before, found.name, body, value,
    found.after ++ pendingText outer, hbody, hvalue, ?_, ?_⟩
  · rw [wholeText_of_frames h, hshape]
    simp
  · show (state.output ++ found.before).toList ++ (value ++ (found.after ++ pendingText outer)) = _
    rw [Array.toList_appendList]

/-- What holds of an expansion of the text `t` throughout. -/
structure Tracks (source : Dict Text) (t : Text) (state : Expansion) : Prop where
  valid : state.Valid source
  /-- The text written and still to be copied is one that `t` is rewritten to. -/
  steps : Steps source state.processed t state.wholeText
  /-- Each name is named by the value of the next one. -/
  linked : state.chain.IsChain fun inner outer =>
    ∃ value, injectedValue? source outer = some value ∧ Names value inner

theorem tracks_start (source : Dict Text) (t : Text) : Tracks source t (start t) where
  valid := valid_start source t
  steps := by
    have hwhole : (start t).wholeText = t := List.append_nil t
    rw [hwhole]
    exact .refl t
  linked := .nil

/-- The innermost value names what is found in its frame. -/
theorem names_of_stacked {frame : Frame} {outer : List Frame} {chain : List Text}
    {found : InjectionMatch} (h : Stacked source (frame :: outer) chain)
    (hfind : findInjection? frame.rest = some found) : ∀ name ∈ chain.head?,
    ∃ value, injectedValue? source name = some value ∧ Names value found.name := by
  rintro name hname
  cases h with
  | lowest => exact nomatch hname
  | above value rest under =>
      obtain rfl := Option.some.inj hname
      obtain ⟨body, hshape, hbody⟩ := exists_of_findInjection hfind
      obtain ⟨before, hbefore⟩ := rest
      refine ⟨frame.text, value, before ++ found.before, body, found.after, hbody, ?_⟩
      rw [← hbefore, hshape, List.append_assoc]

theorem Tracks.step (h : Tracks source t state) (hstep : state.step source = .ok (some next)) :
    Tracks source t next := by
  have hvalid := h.valid.step hstep
  rcases step_cases hstep with ⟨frame, outer, hframes, -, rfl⟩ |
    ⟨frame, outer, found, value, hframes, hfind, hvalue, rfl⟩
  · refine ⟨hvalid, ?_, h.linked.drop 1⟩
    rw [wholeText_leave hframes]
    exact h.steps
  · refine ⟨hvalid, h.steps.trans (.single (rewrites_enter hframes hfind hvalue)), ?_⟩
    have hstacked := h.valid.stacked
    rw [hframes] at hstacked
    exact List.isChain_cons.2 ⟨names_of_stacked hstacked hfind, h.linked⟩

theorem tracks_of_reaches (h : Reaches source (start t) state) : Tracks source t state :=
  h.invariant Tracks.step (tracks_start source t)

/-- Every member of a chain but the first is related to one before it. -/
theorem exists_of_isChain {α : Type} {r : α → α → Prop} {x : α} {l : List α}
    (h : (x :: l).IsChain r) : ∀ y ∈ l, ∃ z ∈ x :: l, r z y := by
  induction l generalizing x with
  | nil => exact fun y hy => nomatch hy
  | cons w l ih =>
      rw [List.isChain_cons_cons] at h
      intro y hy
      rcases List.mem_cons.1 hy with rfl | hy
      · exact ⟨x, .head _, h.1⟩
      · obtain ⟨z, hz, hzy⟩ := ih h.2 y hy
        exact ⟨z, .tail _ hz, hzy⟩

/-- A name that is met again while it is under expansion is met for ever. -/
theorem Tracks.endless (h : Tracks source t state) {frame : Frame} {outer : List Frame}
    {found : InjectionMatch} (hframes : state.frames = frame :: outer)
    (hfind : findInjection? frame.rest = some found)
    (hagain : state.expanding.contains found.name = true) (n : Nat) :
    ∃ u, Steps source n state.wholeText u := by
  have hstacked := h.valid.stacked
  rw [hframes] at hstacked
  have hmem := (h.valid.expanding_iff found.name).1 hagain
  have hchain := List.isChain_cons.2 ⟨names_of_stacked hstacked hfind, h.linked⟩
  obtain ⟨body, hshape, hbody⟩ := exists_of_findInjection hfind
  refine exists_steps_of_loop (· ∈ state.chain) ?_ n (s := state.wholeText)
    ⟨state.output.toList ++ found.before, body, found.after ++ pendingText outer, hbody, ?_⟩ hmem
  · intro name hname
    obtain ⟨next, hnext, value, hvalue, hnames⟩ := exists_of_isChain hchain name hname
    refine ⟨value, next, hvalue, hnames, ?_⟩
    rcases List.mem_cons.1 hnext with rfl | hnext
    · exact hmem
    · exact hnext
  · rw [wholeText_of_frames hframes, hshape]
    simp

end Expansion

open Expansion

variable {source : Dict Text} {s t u : Text} {p q : Pass} {n : Nat}

/-! ## Passes -/

/-- A pass makes a step for every expression that it replaces. -/
theorem inject_steps (h : inject source t = .ok p) : Steps source p.processed t p.text := by
  obtain ⟨last, hlast, ⟨hover, hrun⟩ | ⟨fault, -, hrun⟩⟩ :=
    exists_of_run (start t) (valid_start source t)
  · rw [inject, hrun, Except.ok.injEq] at h
    subst h
    have hsteps := (tracks_of_reaches hlast).steps
    rw [wholeText, frames_of_step hover] at hsteps
    rwa [show pendingText [] = [] from rfl, List.append_nil] at hsteps
  · rw [inject, hrun] at h
    exact nomatch h

/-- A pass succeeds if there is any way to a text without expressions. -/
theorem exists_inject (h : Steps source n t u) (hu : findInjection? u = none) :
    ∃ p, inject source t = .ok p := by
  obtain ⟨last, hlast, ⟨-, hrun⟩ | ⟨fault, hfault, -⟩⟩ :=
    exists_of_run (start t) (valid_start source t)
  · exact ⟨_, hrun⟩
  · exfalso
    have htracks := tracks_of_reaches hlast
    obtain ⟨k, -, hrest⟩ := h.descent hu htracks.steps
    have hout := outcome source last
    rw [hfault] at hout
    cases hout with
    | @missing frame outer found frames here stored =>
        obtain ⟨body, hshape, hbody⟩ := exists_of_findInjection here
        refine hrest.not_stuck hu ⟨last.output.toList ++ found.before, found.name, body,
          found.after ++ pendingText outer, hbody, stored, ?_⟩
        rw [wholeText_of_frames frames, hshape]
        simp
    | cycle frames here stored again => exact hrest.not_endless hu (htracks.endless frames here again)

/-- A pass over a text without expressions changes nothing. -/
theorem inject_none (h : findInjection? s = none) : inject source s = .ok ⟨s, 0⟩ := by
  have hself : Steps source 0 s s := .refl s
  obtain ⟨⟨text, processed⟩, hp⟩ := exists_inject hself h
  have hsteps : Steps source processed s text := inject_steps hp
  cases hsteps with
  | refl => exact hp
  | head first rest => exact absurd h first.findInjection_ne_none

/-- A pass over a text with an expression replaces at least one. -/
theorem inject_pos {found : InjectionMatch} (h : findInjection? s = some found)
    (hp : inject source s = .ok p) : 0 < p.processed := by
  have hstep : ∀ {a b : Expansion}, 0 < a.processed ∨ a = start s →
      a.step source = .ok (some b) → 0 < b.processed ∨ b = start s := by
    intro a b ha hab
    rcases step_cases hab with ⟨frame, outer, hframes, hnone, rfl⟩ |
      ⟨frame, outer, found, value, -, -, -, rfl⟩
    · rcases ha with ha | rfl
      · exact .inl ha
      · obtain ⟨rfl, -⟩ := List.cons.inj hframes
        rw [h] at hnone
        exact nomatch hnone
    · exact .inl (Nat.succ_pos _)
  obtain ⟨last, hlast, ⟨hover, hrun⟩ | ⟨fault, -, hrun⟩⟩ :=
    exists_of_run (start s) (valid_start source s)
  · rw [inject, hrun, Except.ok.injEq] at hp
    subst hp
    rcases hlast.invariant hstep (.inr rfl) with hpos | rfl
    · exact hpos
    · exact nomatch frames_of_step hover
  · rw [inject, hrun] at hp
    exact nomatch hp

/-- A pass that replaces nothing leaves the text as it is, and there is nothing in it to
    replace. -/
theorem inject_idle_iff : inject source s = .ok ⟨t, 0⟩ ↔ t = s ∧ findInjection? s = none := by
  cases hfind : findInjection? s with
  | none =>
      rw [inject_none hfind, Except.ok.injEq, Pass.mk.injEq]
      constructor
      · rintro ⟨rfl, -⟩
        exact ⟨rfl, rfl⟩
      · rintro ⟨rfl, -⟩
        exact ⟨rfl, rfl⟩
  | some found =>
      constructor
      · intro h
        exact absurd (inject_pos hfind h) (Nat.lt_irrefl 0)
      · rintro ⟨-, hnone⟩
        cases hnone

/-! ## A pass gets at least as far as a plain one -/

/-- The text still to be copied, where the lowest frame is replaced by its plain
    pass. -/
inductive Ahead (source : Dict Text) : List Frame → Text → Prop
  | closed : Ahead source [] []
  | lowest {frame : Frame} {p : Pass} (plain : plainPass source frame.rest = .ok p) :
      Ahead source [frame] p.text
  | above {frame below : Frame} {outer : List Frame} {w : Text}
      (under : Ahead source (below :: outer) w) :
      Ahead source (frame :: below :: outer) (frame.rest ++ w)

/-- The plain pass of `q` leads to what is written so far, with the plain pass of
    the rest. -/
def LeadsOn (source : Dict Text) (q : Pass) (state : Expansion) : Prop :=
  ∃ w n, Ahead source state.frames w ∧ Steps source n q.text (state.output.toList ++ w)

theorem LeadsOn.step {state next : Expansion} (h : LeadsOn source q state)
    (hstep : state.step source = .ok (some next)) : LeadsOn source q next := by
  obtain ⟨w, n, hahead, hsteps⟩ := h
  rcases step_cases hstep with ⟨frame, outer, hframes, hnone, rfl⟩ |
    ⟨frame, outer, found, value, hframes, hfind, hvalue, rfl⟩
  · rw [hframes] at hahead
    have hcopied : ∀ w', w = frame.rest ++ w' →
        state.output.toList ++ w = (state.leave frame outer).output.toList ++ w' := by
      rintro w' rfl
      rw [leave, Array.toList_appendList, List.append_assoc]
    cases hahead with
    | lowest plain =>
        rw [plainPass_none hnone, Except.ok.injEq] at plain
        subst plain
        refine ⟨[], n, .closed, ?_⟩
        rwa [hcopied [] (List.append_nil _).symm] at hsteps
    | above under =>
        refine ⟨_, n, under, ?_⟩
        rwa [hcopied _ rfl] at hsteps
  · rw [hframes] at hahead
    cases hahead with
    | lowest plain =>
        -- The lowest frame: the plain pass replaces the expression as well.
        obtain ⟨value', rest, hvalue', hrest, rfl⟩ := exists_of_plainPass hfind plain
        rw [hvalue, Option.some.injEq] at hvalue'
        subst hvalue'
        refine ⟨value ++ rest.text, n, .above (.lowest hrest), ?_⟩
        rwa [enter, Array.toList_appendList, List.append_assoc]
    | @above _ below outer w under =>
        -- A frame above: this is one step more.
        obtain ⟨body, hshape, hbody⟩ := exists_of_findInjection hfind
        refine ⟨value ++ (found.after ++ w), n + 1, .above (.above under), hsteps.trans (.single ?_)⟩
        refine ⟨state.output.toList ++ found.before, found.name, body, value, found.after ++ w,
          hbody, hvalue, ?_, ?_⟩
        · rw [hshape]
          simp
        · rw [enter, Array.toList_appendList]

/-- A plain pass is caught up with. -/
theorem inject_ahead (hp : inject source s = .ok p) (hq : plainPass source s = .ok q) :
    ∃ n, Steps source n q.text p.text := by
  obtain ⟨last, hlast, ⟨hover, hrun⟩ | ⟨fault, -, hrun⟩⟩ :=
    exists_of_run (start s) (valid_start source s)
  · rw [inject, hrun, Except.ok.injEq] at hp
    subst hp
    have hstart : LeadsOn source q (start s) := ⟨q.text, 0, .lowest hq, .refl _⟩
    obtain ⟨w, n, hahead, hsteps⟩ := hlast.invariant LeadsOn.step hstart
    rw [frames_of_step hover] at hahead
    cases hahead with
    | closed =>
        rw [List.append_nil] at hsteps
        exact ⟨n, hsteps⟩
  · rw [inject, hrun] at hp
    exact nomatch hp

end StoryTemplate
