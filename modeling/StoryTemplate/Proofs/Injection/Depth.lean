import Mathlib.Algebra.Group.Nat.Defs
import StoryTemplate.Proofs.Injection.Expanding

/-! # Depth — how deep an expansion goes, and that it ends

    An expansion opens frames as well as closing them, and the number of its steps
    may grow with a power of the longest value.  It stays shallow all the same: the
    frames are the text of the pass and above it the values of the names under
    expansion, in their order (`Lined`), and these names are distinct names of the
    source.  What still has to be done gets less with every step, so no run of
    steps is longer than the work at the beginning.

    Main facts: `add_weight_le` (the length of a run), `Lined.step` (what the frames
    are) and `inject_bounded`. -/

namespace StoryTemplate
namespace Expansion

variable {source : Dict Text} {s : Text} {state next : Expansion}

/-! ## The length of a run -/

/-- The work at the beginning of a run pays for each of its steps. -/
theorem add_weight_le {run : Nat → Expansion} (valid : (run 0).Valid source) {n : Nat}
    (hrun : ∀ k < n, (run k).step source = .ok (some (run (k + 1)))) :
    (run n).Valid source ∧ n + (run n).weight source ≤ (run 0).weight source := by
  induction n with
  | zero =>
      refine ⟨valid, ?_⟩
      omega
  | succ n ih =>
      obtain ⟨hvalid, hle⟩ := ih fun k hk => hrun k (Nat.lt_succ_of_lt hk)
      have hstep := hrun n (Nat.lt_succ_self n)
      have hlt := weight_step_lt hvalid hstep
      refine ⟨hvalid.step hstep, ?_⟩
      omega

/-- The work that a whole text is. -/
theorem weight_start (source : Dict Text) (s : Text) :
    (start s).weight source = (s.length + 1) * (longest source + 2) ^ source.size :=
  rfl

/-! ## The frames -/

/-- The frames are the values of the names under expansion, and below them the text of
    the pass; or all frames are closed. -/
def Lined (source : Dict Text) (s : Text) (state : Expansion) : Prop :=
  state.frames = [] ∨
    state.frames.map (fun frame => some frame.text) =
      state.chain.map (injectedValue? source) ++ [some s]

theorem lined_start (source : Dict Text) (s : Text) : Lined source s (start s) :=
  .inr rfl

/-- A frame is opened with its name and closed with it. -/
theorem Lined.step (h : Lined source s state) (hstep : state.step source = .ok (some next)) :
    Lined source s next := by
  rcases step_cases hstep with
    ⟨frame, outer, hframes, -, rfl⟩ | ⟨frame, outer, found, value, hframes, -, hvalue, rfl⟩
  · rw [Lined, hframes] at h
    have hlined := h.resolve_left (List.cons_ne_nil frame outer)
    cases hchain : state.chain with
    | nil =>
        rw [hchain] at hlined
        exact .inl (List.map_eq_nil_iff.1 (List.cons.inj hlined).2)
    | cons name chain =>
        rw [hchain] at hlined
        refine .inr ?_
        show outer.map _ = (state.chain.drop 1).map _ ++ _
        rw [hchain]
        exact (List.cons.inj hlined).2
  · rw [Lined, hframes] at h
    have hlined := h.resolve_left (List.cons_ne_nil frame outer)
    exact .inr (congrArg₂ List.cons hvalue.symm hlined)

/-- What is known of an expansion whenever its innermost frame is about to be copied. -/
structure InProgress (source : Dict Text) (s : Text) (state : Expansion) : Prop where
  nodup : state.chain.Nodup
  expanding_iff : ∀ name, state.expanding.contains name = true ↔ name ∈ state.chain
  length_frames : state.frames.length = state.chain.length + 1
  /-- The frame at the place of a name is the value of that name, which is not empty. -/
  value : ∀ (i : Nat) (name : Text), state.chain[i]? = some name →
    ∃ frame : Frame, state.frames[i]? = some frame ∧
      source.get? name = some frame.text ∧ frame.text ≠ []
  lowest : state.frames.getLast?.map Frame.text = some s
  depth : state.frames.length ≤ source.size + 1

theorem Valid.inProgress (valid : state.Valid source) (hlined : Lined source s state)
    (hframes : state.frames ≠ []) : InProgress source s state := by
  have htexts := hlined.resolve_left hframes
  have hlength : state.frames.length = state.chain.length + 1 := by
    have hlen := congrArg List.length htexts
    rw [List.length_map, List.length_append, List.length_map] at hlen
    exact hlen
  refine ⟨valid.nodup, valid.expanding_iff, hlength, ?_, ?_, ?_⟩
  · intro i name hname
    have hi := congrArg (·[i]?) htexts
    have hmap : (state.chain.map (injectedValue? source))[i]? = some (injectedValue? source name) := by
      rw [List.getElem?_map, hname, Option.map_some]
    simp only [List.getElem?_map] at hi
    rw [List.getElem?_append_left (List.getElem?_eq_some_iff.1 hmap).1, hmap] at hi
    obtain ⟨frame, hframe, hvalue⟩ := Option.map_eq_some_iff.1 hi
    obtain ⟨hget, hne⟩ := Option.filter_eq_some_iff.1 hvalue.symm
    exact ⟨frame, hframe, hget, of_decide_eq_true hne⟩
  · have hlast := congrArg List.getLast? htexts
    rw [List.getLast?_map, List.getLast?_concat] at hlast
    obtain ⟨frame, hframe, htext⟩ := Option.map_eq_some_iff.1 hlast
    rw [hframe]
    exact htext
  · rw [hlength]
    exact Nat.succ_le_succ valid.length_chain_le

end Expansion

open Expansion

/-- A pass comes to an end, and no run of its steps is longer than a power of the longest
    value; all along, the names under expansion are distinct, their frames are their
    values, and there is at most one frame more than the source has names. -/
theorem inject_bounded (source : Dict Text) (s : Text) :
    (∃ last, Reaches source (start s) last ∧
      ((last.step source = .ok none ∧
          inject source s = .ok ⟨last.output.toList, last.processed⟩) ∨
        ∃ fault, last.step source = .error fault ∧ inject source s = .error fault)) ∧
    (∀ (run : Nat → Expansion) (n : Nat), run 0 = start s →
      (∀ k < n, (run k).step source = .ok (some (run (k + 1)))) →
      n ≤ (s.length + 1) * (longest source + 2) ^ source.size) ∧
    ∀ state, Reaches source (start s) state → state.frames ≠ [] → InProgress source s state := by
  have hstart := valid_start source s
  refine ⟨exists_of_run (start s) hstart, ?_, ?_⟩
  · intro run n hzero hrun
    obtain ⟨-, hle⟩ := add_weight_le (hzero ▸ hstart) hrun
    rw [hzero, weight_start] at hle
    omega
  · intro state hreach hframes
    have hvalid : state.Valid source := hreach.invariant Valid.step hstart
    have hlined : Lined source s state := hreach.invariant Lined.step (lined_start source s)
    exact hvalid.inProgress hlined hframes

end StoryTemplate
