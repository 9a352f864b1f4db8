import StoryTemplate.Proofs.Bytes.Positions
import StoryTemplate.Proofs.Injection.Expanding
import StoryTemplate.Proofs.Text.Cuts

/-! # Injection by bytes

    A text under expansion is kept with the position up to which it is copied, counted in
    bytes.  A search goes on from there, and the name is cut out of the expression that it
    finds.  What is still to be copied always ends the text, so no position is ever out of
    place.

    Main facts: `injectionName?_eq` (the name of an expression), `expansionStep?_eq` (a
    step) and `inject?_eq` (a pass). -/

namespace StoryTemplate

open String (utf8Len)

/-- A text under expansion. -/
structure PlacedFrame where
  text : Text
  /-- The position in bytes up to which the text is copied. -/
  pos : Nat
  deriving DecidableEq

/-- The state of an expansion with positions in bytes. -/
structure PlacedExpansion where
  /-- Innermost first. -/
  frames : List PlacedFrame
  chain : List Text
  expanding : NameSet
  output : Array Char
  processed : Nat

/-- The frame with the position before what is still to be copied. -/
def Frame.inBytes (frame : Frame) : PlacedFrame :=
  ⟨frame.text, utf8Len frame.text - utf8Len frame.rest⟩

/-- The state with the positions of its frames. -/
def Expansion.inBytes (state : Expansion) : PlacedExpansion :=
  ⟨state.frames.map Frame.inBytes, state.chain, state.expanding, state.output, state.processed⟩

namespace Bytes

/-! ## The pass -/

/-- Where the first injection expression from the position on stands. -/
def findInjectionFrom? (s : Text) (pos : Nat) : Checked (Option Span) := do
  let (_, rest) ← cutAt? s pos
  match findInjection? rest with
  | none => return none
  | some found =>
      let start := pos + utf8Len found.before
      let stop ← back? start (utf8Len s) (utf8Len found.after)
      return some ⟨start, stop⟩

/-- The name in an injection expression. -/
def injectionName? (expression : Text) : Checked Text := do
  let stop ← back? 2 (utf8Len expression) 1
  let content ← slice? expression ⟨2, stop⟩
  return trim content

/-- Copies the innermost frame up to its next injection expression and opens a frame for
    the value, or copies the frame to its end and closes it. -/
def expansionStep? (source : Dict Text) (state : PlacedExpansion) :
    Checked (Except Fault (Option PlacedExpansion)) :=
  match state.frames with
  | [] => some (.ok none)
  | frame :: outer => do
      match ← findInjectionFrom? frame.text frame.pos with
      | none =>
          let rest ← slice? frame.text ⟨frame.pos, utf8Len frame.text⟩
          return .ok (some ⟨outer, state.chain.drop 1,
            state.chain.head?.elim state.expanding state.expanding.erase,
            state.output ++ rest, state.processed⟩)
      | some found =>
          let before ← slice? frame.text ⟨frame.pos, found.start⟩
          let name ← injectionName? (← slice? frame.text found)
          match injectedValue? source name with
          | none => return .error (.nothingInjected name)
          | some value =>
              if state.expanding.contains name then return .error (.injectionCycle name)
              else return .ok (some ⟨⟨value, 0⟩ :: ⟨frame.text, found.stop⟩ :: outer,
                name :: state.chain, state.expanding.insert name (),
                state.output ++ before, state.processed + 1⟩)

/-- Carries an expansion to its end. -/
noncomputable def expansionRun? (source : Dict Text) : PlacedExpansion → Checked (Except Fault Pass) :=
  Checked.loop fun state => do
    match ← expansionStep? source state with
    | .error fault => return .inl (.error fault)
    | .ok none => return .inl (.ok ⟨state.output.toList, state.processed⟩)
    | .ok (some next) => return .inr next

/-- Replaces every injection expression of the text by its value, and those in the values
    in the same pass. -/
noncomputable def inject? (source : Dict Text) (s : Text) : Checked (Except Fault Pass) :=
  expansionRun? source ⟨[⟨s, 0⟩], [], ∅, #[], 0⟩

/-! ## Expressions -/

theorem AtMostBlank.isBlank {s : Text} (h : AtMostBlank s) : ∀ c ∈ s, isBlank c = true := by
  rcases h with rfl | ⟨d, rfl, hd⟩
  · exact List.forall_mem_nil _
  · exact List.forall_mem_singleton.2 hd

theorem trim_word {lead name trail : Text} (hlead : AtMostBlank lead) (htrail : AtMostBlank trail)
    (hne : name ≠ []) (hname : ∀ c ∈ name, isWord c = true) :
    trim (lead ++ (name ++ trail)) = name := by
  have hstart : startsWith isBlank (name ++ trail) = false := by
    cases name with
    | nil => exact absurd rfl hne
    | cons c r => exact not_isBlank_of_isWord (hname c (.head _))
  have hend : name.getLast?.any isBlank = false := by
    rw [List.getLast?_eq_some_getLast hne]
    exact not_isBlank_of_isWord (hname _ (List.getLast_mem hne))
  rw [trim, trimStart_blank (AtMostBlank.isBlank hlead) hstart,
    trimEnd_blank (AtMostBlank.isBlank htrail) hend]

/-- The name is cut out of an expression between its first two characters and its last. -/
theorem injectionName?_eq {name body : Text} (h : IsInjection name body) :
    injectionName? ('\x7b' :: (body ++ ['\x7d'])) = some name := by
  obtain ⟨lead, trail, rfl, hlead, htrail, hne, hname⟩ := h
  generalize hcontent : lead ++ (name ++ trail) = content
  have hlen : 2 + utf8Len content + 1 = utf8Len (['\x7b', '>'] ++ (content ++ ['\x7d'])) := by
    rw [String.utf8Len_append ['\x7b', '>'], String.utf8Len_append content]
    exact Nat.add_assoc 2 _ 1
  have hslice : slice? (['\x7b', '>'] ++ (content ++ ['\x7d'])) ⟨2, 2 + utf8Len content⟩ =
      some content := slice?_eq_some_iff.2 ⟨['\x7b', '>'], ['\x7d'], rfl, rfl, rfl⟩
  show injectionName? (['\x7b', '>'] ++ (content ++ ['\x7d'])) = some name
  rw [injectionName?, Checked.bind_of_eq (back?_eq hlen (Nat.le_add_right 2 _)),
    Checked.bind_of_eq hslice, ← hcontent, trim_word hlead htrail hne hname]
  rfl

variable {done rest : Text} {found : InjectionMatch}

theorem findInjectionFrom?_none (h : findInjection? rest = none) :
    findInjectionFrom? (done ++ rest) (utf8Len done) = some none := by
  rw [findInjectionFrom?, Checked.bind_of_eq (cutAt?_append done rest)]
  dsimp only
  rw [h]
  rfl

/-- Where a search finds an expression, which is as long as it is written. -/
theorem findInjectionFrom?_some (h : findInjection? rest = some found) : ∃ expression,
    rest = found.before ++ (expression ++ found.after) ∧
    injectionName? expression = some found.name ∧
    findInjectionFrom? (done ++ rest) (utf8Len done) =
      some (some ⟨utf8Len done + utf8Len found.before,
        utf8Len done + utf8Len found.before + utf8Len expression⟩) := by
  obtain ⟨body, hrest, hbody⟩ := exists_of_findInjection h
  have hexpression : rest = found.before ++ ('\x7b' :: (body ++ ['\x7d']) ++ found.after) := by
    rw [hrest]
    simp
  refine ⟨_, hexpression, injectionName?_eq hbody, ?_⟩
  have hlen : utf8Len done + utf8Len found.before + utf8Len ('\x7b' :: (body ++ ['\x7d'])) +
      utf8Len found.after = utf8Len (done ++ rest) := by
    rw [hexpression, String.utf8Len_append, String.utf8Len_append, String.utf8Len_append]
    omega
  rw [findInjectionFrom?, Checked.bind_of_eq (cutAt?_append done rest)]
  dsimp only
  rw [h]
  exact Checked.bind_of_eq (back?_eq hlen (Nat.le_add_right _ _)) _

/-! ## One step -/

/-- What is still to be copied ends the text, in every frame. -/
def Suffixed (state : Expansion) : Prop := ∀ frame ∈ state.frames, frame.rest <:+ frame.text

variable {source : Dict Text} {state next : Expansion}

/-- The position of a frame is the length of what is copied. -/
theorem inBytes_frame (done rest : Text) :
    Frame.inBytes ⟨done ++ rest, rest⟩ = ⟨done ++ rest, utf8Len done⟩ := by
  rw [Frame.inBytes, String.utf8Len_append, Nat.add_sub_cancel]

/-- A step by bytes is in place and does what the step by characters does. -/
theorem expansionStep?_eq (h : Suffixed state) :
    expansionStep? source state.inBytes =
      some ((state.step source).map (Option.map Expansion.inBytes)) := by
  cases hframes : state.frames with
  | nil =>
      rw [expansionStep?, Expansion.inBytes, hframes, Expansion.step, hframes]
      rfl
  | cons frame outer =>
      obtain ⟨text, rest⟩ := frame
      obtain ⟨done, htext⟩ := h ⟨text, rest⟩ (by rw [hframes]; exact .head _)
      obtain rfl : done ++ rest = text := htext
      rw [expansionStep?, Expansion.inBytes, hframes, List.map_cons, inBytes_frame, Expansion.step,
        hframes]
      dsimp only
      cases hfind : findInjection? rest with
      | none =>
          have hrest : slice? (done ++ rest) ⟨utf8Len done, utf8Len (done ++ rest)⟩ = some rest :=
            slice?_eq_some_iff.2 ⟨done, [], by rw [List.append_nil], rfl, String.utf8Len_append ..⟩
          rw [Checked.bind_of_eq (findInjectionFrom?_none hfind)]
          exact Checked.bind_of_eq hrest _
      | some found =>
          obtain ⟨expression, hexpression, hname, hfrom⟩ := @findInjectionFrom?_some done _ _ hfind
          have hbefore : slice? (done ++ rest)
              ⟨utf8Len done, utf8Len done + utf8Len found.before⟩ = some found.before :=
            slice?_eq_some_iff.2 ⟨done, expression ++ found.after, by rw [hexpression], rfl, rfl⟩
          have hplace : slice? (done ++ rest) ⟨utf8Len done + utf8Len found.before,
              utf8Len done + utf8Len found.before + utf8Len expression⟩ = some expression :=
            slice?_eq_some_iff.2 ⟨done ++ found.before, found.after,
              by rw [hexpression, List.append_assoc], String.utf8Len_append .., rfl⟩
          rw [Checked.bind_of_eq hfrom]
          dsimp only
          rw [Checked.bind_of_eq hbefore, Checked.bind_of_eq hplace, Checked.bind_of_eq hname]
          cases injectedValue? source found.name with
          | none => rfl
          | some value =>
              dsimp only
              by_cases hcycle : state.expanding.contains found.name = true
              · rw [if_pos hcycle, if_pos hcycle]
                rfl
              · rw [if_neg hcycle, if_neg hcycle]
                have hafter : done ++ rest =
                    (done ++ found.before ++ expression) ++ found.after := by
                  rw [hexpression, List.append_assoc, List.append_assoc]
                have hframe := inBytes_frame (done ++ found.before ++ expression) found.after
                rw [← hafter, String.utf8Len_append, String.utf8Len_append] at hframe
                have hvalue : Frame.inBytes ⟨value, value⟩ = ⟨value, 0⟩ := inBytes_frame [] value
                dsimp only [Except.map, Option.map, Expansion.inBytes]
                rw [List.map_cons, List.map_cons, hframe, hvalue]
                rfl

/-- A step leaves ends of the texts to be copied. -/
theorem suffixed_step (h : Suffixed state) (hstep : state.step source = .ok (some next)) :
    Suffixed next := by
  rcases Expansion.step_cases hstep with
    ⟨frame, outer, hframes, -, rfl⟩ | ⟨frame, outer, found, value, hframes, hfind, -, rfl⟩
  · rw [Suffixed, hframes, List.forall_mem_cons] at h
    exact h.2
  · rw [Suffixed, hframes, List.forall_mem_cons] at h
    refine List.forall_mem_cons.2 ⟨List.suffix_refl value, List.forall_mem_cons.2 ⟨?_, h.2⟩⟩
    exact (suffix_of_findInjection hfind).trans h.1

/-! ## A whole pass -/

theorem expansionRun?_eq (valid : state.Valid source) (h : Suffixed state) :
    expansionRun? source state.inBytes = some (state.run source valid) := by
  refine Checked.loop_eq_some_iff.2 ?_
  fun_induction state.run source valid with
  | case1 state valid fault hstep =>
      refine .last ((Checked.bind_of_eq (expansionStep?_eq h) _).trans ?_)
      rw [hstep]
      rfl
  | case2 state valid hstep =>
      refine .last ((Checked.bind_of_eq (expansionStep?_eq h) _).trans ?_)
      rw [hstep]
      rfl
  | case3 state valid next hstep ih =>
      refine .next ((Checked.bind_of_eq (expansionStep?_eq h) _).trans ?_)
        (ih (suffixed_step h hstep))
      rw [hstep]
      rfl

/-- A pass by bytes is in place from beginning to end, and has the outcome of the pass by
    characters. -/
theorem inject?_eq (source : Dict Text) (s : Text) : inject? source s = some (inject source s) := by
  have hstart : (Expansion.start s).inBytes = ⟨[⟨s, 0⟩], [], ∅, #[], 0⟩ := by
    rw [Expansion.inBytes, Expansion.start, List.map_singleton]
    exact congrArg (PlacedExpansion.mk [·] _ _ _ _) (inBytes_frame [] s)
  rw [inject?, ← hstart]
  exact expansionRun?_eq (Expansion.valid_start source s)
    (List.forall_mem_singleton.2 (List.suffix_refl s))

end Bytes
end StoryTemplate
