import StoryTemplate.Proofs.Bytes.Braces
import StoryTemplate.Proofs.Conditional.Locality

/-! # Conditional expressions by bytes

    An expression is read from a text in its UTF-8 form: the places of its branches are
    computed from the lengths of what is left of the text after each cut.  No slice of
    this reading is ever out of place and no subtraction leaves the group, and the
    result is the expression that is read by characters.

    Main facts: `ternary?_eq`, `matching?_eq` and `conditional?_eq`. -/

namespace StoryTemplate

open String (utf8Len)

/-- The expression with its branches counted in bytes. -/
def Conditional.inBytes (expression : Conditional) (src : Source) : Conditional :=
  expression.mapSpans (Span.inBytes · src)

namespace Bytes

/-! ## Reading -/

/-- Reads the branches of a ternary from the span after its question mark. -/
def ternary? (s : Text) (braces : BraceMap) (flag : Text) (body : Span) :
    Checked (Option Conditional) := do
  match ← parts? s braces '|' body with
  | first :: second :: others =>
      let last := (first :: second :: others).getLast (List.cons_ne_nil _ _)
      let bar ← back? body.start last.start 1
      let whenTrue ← branch? s ⟨body.start, bar⟩
      let whenFalse ← branch? s last
      return some (.ternary flag whenTrue whenFalse)
  | _ => return none

/-- The value of the arm that the text may be: the word behind the colon that it begins
    with. -/
def armValue? (part : Text) : Checked (Option Text) :=
  match stripPrefix? ':' part with
  | none => some none
  | some rest => do
      let (value, _) ← splitRun? isWord rest
      return if value = [] then none else some value

/-- Reads an arm: a colon and a word, then the branch. -/
def arm? (s : Text) (part : Span) : Checked (Option (Text × Span)) := do
  match ← armValue? (← slice? s part) with
  | none => return none
  | some value =>
      let branch ← branch? s ⟨part.start + 1 + utf8Len value, part.stop⟩
      return some (value, branch)

/-- Reads arms up to the first part that is none. -/
def arms? (s : Text) : List Span → Checked (Option (List (Text × Span)))
  | [] => some (some [])
  | part :: parts => do
      match ← arm? s part with
      | none => return none
      | some arm => return (← arms? s parts).map (arm :: ·)

/-- Reads the arms and the fallback of a matching from the span after its first value. -/
def armsAfter? (s : Text) (braces : BraceMap) (name value : Text) (rest : Span) :
    Checked (Option Conditional) := do
  match ← parts? s braces '|' rest with
  | primary :: second :: others =>
      let fallback := (second :: others).getLast (List.cons_ne_nil _ _)
      if (← armValue? (← slice? s fallback)).isSome then return none
      else
        let branch ← branch? s primary
        match ← arms? s (second :: others).dropLast with
        | none => return none
        | some alternatives =>
            let last ← branch? s fallback
            return some (.matching name ((value, branch) :: alternatives) last)
  | _ => return none

/-- Reads the arms and the fallback of a matching from the span after its colon. -/
def matching? (s : Text) (braces : BraceMap) (name : Text) (body : Span) :
    Checked (Option Conditional) := do
  let (value, rest) ← splitRun? isWord (← slice? s body)
  if value = [] ∨ startsWith isBlank rest = false then return none
  else armsAfter? s braces name value ⟨body.start + utf8Len value, body.stop⟩

/-- Reads the expression between two braces. -/
def content? (s : Text) (braces : BraceMap) (inner : Span) : Checked (Option Conditional) := do
  let (name, rest) ← splitRun? isWord (trimStart (← slice? s inner))
  if name = [] then return none
  else
    match stripPrefix? '?' (trimStart rest), stripPrefix? ':' rest with
    | some body, _ =>
        let start ← back? inner.start inner.stop (utf8Len body)
        ternary? s braces name ⟨start, inner.stop⟩
    | none, some body =>
        let start ← back? inner.start inner.stop (utf8Len body)
        matching? s braces name ⟨start, inner.stop⟩
    | none, none => return none

/-- Reads the expression whose opening brace is at the position, together with the
    position of its closing brace. -/
def conditional? (s : Text) (braces : BraceMap) (opened : Nat) :
    Checked (Option (Conditional × Nat)) :=
  readGroup? braces (content? s braces) opened

/-! ## All accesses are in place -/

variable {src : Source} {s : Span} {t : Text}

/-- What a span begins with can be stripped from its text. -/
theorem startsWith_eq_isSome (h : s.Shows src t) (c : Char) :
    s.startsWith src c = (stripPrefix? c t).isSome := by
  rw [h.startsWith_eq]
  cases t with
  | nil => rfl
  | cons d r =>
      rw [stripPrefix?, List.head?_cons, Option.some_beq_some]
      by_cases hd : d = c
      · rw [if_pos hd, hd, beq_self_eq_true]
        rfl
      · rw [if_neg hd, beq_eq_false_iff_ne.2 hd]
        rfl

/-- The reading of an arm in terms of its text. -/
theorem arm?_eq_some {r : Text} (h : s.Shows src (':' :: r)) :
    Conditional.arm? src s =
      if r.takeWhile isWord = [] then none
      else some (r.takeWhile isWord,
        (Span.mk ((Span.mk (s.start + 1) s.stop).word src).stop s.stop).branch src) := by
  have hword := h.tail.word
  rw [Conditional.arm?, startsWith_eq_isSome h, if_pos (by rfl)]
  dsimp only
  rw [hword.isEmpty_eq, hword.text_eq]
  by_cases hempty : r.takeWhile isWord = []
  · rw [if_pos hempty, if_pos (by rw [hempty]; rfl)]
  · rw [if_neg hempty, if_neg (by rwa [List.isEmpty_iff])]

theorem arm?_eq_none (h : s.Shows src t) (ht : stripPrefix? ':' t = none) :
    Conditional.arm? src s = none := by
  rw [Conditional.arm?, startsWith_eq_isSome h, ht, if_neg (by decide)]

theorem armValue?_eq (h : s.Shows src t) :
    armValue? t = some ((Conditional.arm? src s).map Prod.fst) := by
  rw [armValue?]
  cases hstrip : stripPrefix? ':' t with
  | none => rw [arm?_eq_none h hstrip]; rfl
  | some r =>
      obtain rfl := stripPrefix?_eq_some_iff.1 hstrip
      rw [arm?_eq_some h]
      dsimp only
      rw [Checked.bind_of_eq (splitRun?_eq isWord r)]
      dsimp only
      by_cases hempty : r.takeWhile isWord = []
      · rw [if_pos hempty, if_pos hempty]
        rfl
      · rw [if_neg hempty, if_neg hempty]
        rfl

theorem arm?_eq (h : s.Shows src t) : arm? src.toList (s.inBytes src) =
    some ((Conditional.arm? src s).map fun arm => (arm.1, arm.2.inBytes src)) := by
  rw [arm?, Checked.bind_of_eq h.slice?_eq, Checked.bind_of_eq (armValue?_eq h)]
  cases hstrip : stripPrefix? ':' t with
  | none => rw [arm?_eq_none h hstrip]; rfl
  | some r =>
      obtain rfl := stripPrefix?_eq_some_iff.1 hstrip
      have hvalue := h.tail.word.inBytes_stop
      have hrest := h.tail.afterWord
      have htail : src.byteOffset (s.start + 1) = (s.inBytes src).start + 1 :=
        Source.byteOffset_succ h.head
      rw [arm?_eq_some h]
      by_cases hempty : r.takeWhile isWord = []
      · rw [if_pos hempty]
        rfl
      · rw [if_neg hempty]
        have hplace : (s.inBytes src).start + 1 + utf8Len (r.takeWhile isWord) =
            src.byteOffset ((Span.mk (s.start + 1) s.stop).word src).stop := by
          rw [← htail]
          exact hvalue.symm
        dsimp only [Option.map_some]
        rw [hplace]
        exact Checked.bind_of_eq (branch?_eq hrest) _

theorem arms?_eq {parts : List Span} (h : ∀ part ∈ parts, part.Shows src (part.text src)) :
    arms? src.toList (parts.map (Span.inBytes · src)) =
      some ((parts.mapM (Conditional.arm? src)).map
        fun arms => arms.map fun arm => (arm.1, arm.2.inBytes src)) := by
  induction parts with
  | nil => rfl
  | cons part parts ih =>
      obtain ⟨hpart, hparts⟩ := List.forall_mem_cons.1 h
      rw [List.map_cons, arms?, Checked.bind_of_eq (arm?_eq hpart), List.mapM_cons]
      cases Conditional.arm? src part with
      | none => rfl
      | some arm =>
          dsimp only [Option.map_some]
          rw [Checked.bind_of_eq (ih hparts)]
          cases parts.mapM (Conditional.arm? src) with
          | none => rfl
          | some arms => rfl

theorem ternary?_eq (h : s.Shows src t) (flag : Text) :
    ternary? src.toList (bracesOf src.toList) flag (s.inBytes src) =
      some ((Conditional.ternary? src (.ofText src.toList) flag s).map (·.inBytes src)) := by
  rw [ternary?, Checked.bind_of_eq (parts?_eq h (by decide)), Conditional.ternary?]
  rcases hparts : s.parts src (.ofText src.toList) '|' with _ | ⟨first, _ | ⟨second, others⟩⟩
  · rfl
  · rfl
  · have hlt := Span.lt_getLast_parts hparts
    have hmem : (second :: others).getLast (List.cons_ne_nil _ _) ∈
        s.parts src (.ofText src.toList) '|' := by
      rw [hparts]
      exact .tail _ (List.getLast_mem _)
    generalize hl : (second :: others).getLast (List.cons_ne_nil _ _) = last at *
    have hlast := h.part hmem
    -- The bar before the last part takes up one byte.
    have hbar : src.byteOffset (last.start - 1) + 1 = src.byteOffset last.start := by
      have hat := (isAt_before_part hmem).resolve_left (Nat.ne_of_gt hlt)
      rw [Source.isAt, beq_iff_eq] at hat
      have hnext := Source.byteOffset_succ hat
      rw [Nat.sub_add_cancel (by omega)] at hnext
      exact hnext.symm
    have hle : s.start ≤ last.start - 1 := by omega
    have hsize : last.start - 1 ≤ src.size :=
      Nat.le_trans (Nat.sub_le _ _) (Nat.le_trans hlast.start_le hlast.stop_le)
    have hback := back?_eq hbar (Source.byteOffset_mono src hle)
    have htrue : (Span.mk s.start (last.start - 1)).Shows src _ := .of_le hle hsize
    have hgetLast : ((first :: second :: others).map (Span.inBytes · src)).getLast (by simp) =
        last.inBytes src := by
      rw [List.getLast_map, List.getLast_cons (List.cons_ne_nil _ _), hl]
    simp only [List.map_cons] at hgetLast ⊢
    rw [hgetLast, List.getLast_cons (List.cons_ne_nil _ _), hl]
    refine (Checked.bind_of_eq hback _).trans ?_
    refine (Checked.bind_of_eq (branch?_eq htrue) _).trans ?_
    exact Checked.bind_of_eq (branch?_eq hlast) _

theorem armsAfter?_eq (h : s.Shows src t) (name value : Text) :
    armsAfter? src.toList (bracesOf src.toList) name value (s.inBytes src) =
      some ((Conditional.armsAfter? src (.ofText src.toList) name value s).map
        (·.inBytes src)) := by
  rw [armsAfter?, Checked.bind_of_eq (parts?_eq h (by decide)), Conditional.armsAfter?]
  rcases hparts : s.parts src (.ofText src.toList) '|' with _ | ⟨primary, _ | ⟨second, others⟩⟩
  · rfl
  · rfl
  · have hshow : ∀ part ∈ primary :: second :: others, part.Shows src (part.text src) :=
      fun part hpart => h.part (hparts ▸ hpart)
    have hlast := hshow _ (.tail _ (List.getLast_mem (List.cons_ne_nil second others)))
    have halternatives : ∀ part ∈ (second :: others).dropLast, part.Shows src (part.text src) :=
      fun part hpart => hshow part (.tail _ ((List.dropLast_sublist _).mem hpart))
    have hgetLast : ((second :: others).map (Span.inBytes · src)).getLast (by simp) =
        ((second :: others).getLast (List.cons_ne_nil _ _)).inBytes src := List.getLast_map _
    have hdropLast : ((second :: others).map (Span.inBytes · src)).dropLast =
        (second :: others).dropLast.map (Span.inBytes · src) := (List.map_dropLast).symm
    simp only [List.map_cons] at hgetLast hdropLast ⊢
    rw [hgetLast, hdropLast]
    refine (Checked.bind_of_eq hlast.slice?_eq _).trans ?_
    refine (Checked.bind_of_eq (armValue?_eq hlast) _).trans ?_
    rw [Option.isSome_map]
    by_cases harm : (Conditional.arm? src
        ((second :: others).getLast (List.cons_ne_nil _ _))).isSome = true
    · rw [if_pos harm, if_pos harm]
      rfl
    · rw [if_neg harm, if_neg harm]
      refine (Checked.bind_of_eq (branch?_eq (hshow _ (.head _))) _).trans ?_
      refine (Checked.bind_of_eq (arms?_eq halternatives) _).trans ?_
      cases (second :: others).dropLast.mapM (Conditional.arm? src) with
      | none => rfl
      | some arms => exact Checked.bind_of_eq (branch?_eq hlast) _

theorem matching?_eq (h : s.Shows src t) (name : Text) :
    matching? src.toList (bracesOf src.toList) name (s.inBytes src) =
      some ((Conditional.matching? src (.ofText src.toList) name s).map (·.inBytes src)) := by
  have hvalue := h.word
  have hrest := h.afterWord
  have hplace : (s.inBytes src).start + utf8Len (t.takeWhile isWord) =
      src.byteOffset (s.word src).stop := hvalue.inBytes_stop.symm
  have hguard : (t.takeWhile isWord = [] ∨ startsWith isBlank (t.dropWhile isWord) = false) ↔
      ((s.word src).isEmpty || (Span.mk (s.word src).stop s.stop).isEmpty ||
        !src.holdsAt isBlank (s.word src).stop) = true := by
    rw [← hrest.startsWithClass isBlank, hvalue.isEmpty_eq, Bool.or_assoc, Bool.or_eq_true,
      List.isEmpty_iff]
    refine or_congr_right ?_
    cases (Span.mk (s.word src).stop s.stop).isEmpty <;> simp
  rw [matching?, Checked.bind_of_eq h.slice?_eq, Checked.bind_of_eq (splitRun?_eq isWord t),
    Conditional.matching_eq, hvalue.text_eq]
  dsimp only
  rw [hplace]
  by_cases hg : t.takeWhile isWord = [] ∨ startsWith isBlank (t.dropWhile isWord) = false
  · rw [if_pos hg, if_pos (hguard.1 hg)]
    rfl
  · rw [if_neg hg, if_neg (mt hguard.2 hg)]
    exact armsAfter?_eq hrest name _

/-- What stands between two braces is read by bytes as it is by characters. -/
theorem content?_eq (h : s.Shows src t) :
    content? src.toList (bracesOf src.toList) (s.inBytes src) =
      some ((Conditional.content? src (.ofText src.toList) s).map (·.inBytes src)) := by
  have hname := h.skipBlank.word
  have hrest : (Span.mk ((s.skipBlank src).word src).stop s.stop).Shows src _ :=
    h.skipBlank.afterWord
  have hmark := hrest.skipBlank
  have hafter : s.start ≤ ((s.skipBlank src).word src).stop :=
    Nat.le_trans (s.start_le_skipBlank src) (Span.start_le_word_stop _ src)
  rw [content?, Checked.bind_of_eq h.slice?_eq, Checked.bind_of_eq (splitRun?_eq isWord _),
    Conditional.content?]
  dsimp only
  rw [hname.isEmpty_eq, hname.text_eq]
  -- The body of an expression ends with the group, so its length tells where it begins.
  have hbody : ∀ {pos : Nat} {c : Char} {body : Text}, s.start ≤ pos →
      (Span.mk pos s.stop).Shows src (c :: body) →
      back? (s.inBytes src).start (s.inBytes src).stop (utf8Len body) =
        some (src.byteOffset (pos + 1)) := fun hle hshow =>
    back?_eq hshow.tail.inBytes_stop.symm (Source.byteOffset_mono src (Nat.le_succ_of_le hle))
  generalize (s.skipBlank src).word src = name at *
  by_cases hempty : (trimStart t).takeWhile isWord = []
  · rw [if_pos hempty, if_pos (by rw [hempty]; rfl)]
    rfl
  · rw [if_neg hempty, if_neg (by rwa [List.isEmpty_iff]), startsWith_eq_isSome hmark,
      startsWith_eq_isSome hrest]
    cases hquestion : stripPrefix? '?' (trimStart ((trimStart t).dropWhile isWord)) with
    | some body =>
        rw [stripPrefix?_eq_some_iff.1 hquestion] at hmark
        rw [if_pos (by rfl)]
        have hle := Nat.le_trans hafter (Span.start_le_skipBlank (Span.mk name.stop s.stop) src)
        refine (Checked.bind_of_eq (hbody hle hmark) _).trans ?_
        exact ternary?_eq hmark.tail _
    | none =>
        rw [if_neg (by decide)]
        cases hcolon : stripPrefix? ':' ((trimStart t).dropWhile isWord) with
        | some body =>
            rw [stripPrefix?_eq_some_iff.1 hcolon] at hrest
            rw [if_pos (by rfl)]
            refine (Checked.bind_of_eq (hbody hafter hrest) _).trans ?_
            exact matching?_eq hrest.tail _
        | none => rfl

/-- An expression is read by bytes as it is by characters. -/
theorem conditional?_eq (src : Source) (opened : Nat) :
    conditional? src.toList (bracesOf src.toList) (src.byteOffset opened) =
      some ((Conditional.parse? src (.ofText src.toList) opened).map fun found =>
        (found.1.inBytes src, src.byteOffset found.2)) := by
  rw [conditional?, Conditional.parse_eq]
  exact readGroup?_eq content?_eq opened

end Bytes
end StoryTemplate
