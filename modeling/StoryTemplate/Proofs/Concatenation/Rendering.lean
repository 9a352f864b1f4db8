import StoryTemplate.Proofs.Concatenation.Passes
import StoryTemplate.Proofs.Injection.Reach
import StoryTemplate.Proofs.Session
import StoryTemplate.Proofs.Stages
import StoryTemplate.Proofs.Template.Meaning

/-! # Rendering one text after another

    If no value opens a group that it does not close, rendering is compositional: a
    closed text and any text behind it render to what they render to by themselves,
    and the objects of the second one move on by the length of the first.  The route:

    * a stage of the whole goes on for as many passes as the slower of its two parts,
      and a part that is done is left alone from then on (`settlesIn_append_iff`);
    * so a stage settles on the whole exactly if it does on both parts, whatever the
      bound on the passes is (`settle_append_iff`);
    * the first part is closed after each stage, so that no anchor reaches out of it
      either (`outline_append`).

    That the first text is closed cannot be left out: of `{>` and `n}` neither is
    an expression by itself.

    Main fact: `render_append`. -/

namespace StoryTemplate

open AnchoredObject

/-! ## Stages -/

section Stages

variable {pass : Text → Except Fault Pass} {stage : Stage} {limit : UInt64} {m n : Nat}
  {s t u v w : Text}

theorem Pass.andThen_eq_ok_iff {first second : Except Fault Pass} {r : Pass} :
    Pass.andThen first second = .ok r ↔
      ∃ p q, first = .ok p ∧ second = .ok q ∧ p.append q = r := by
  rw [Pass.andThen, bind_eq_ok_iff]
  constructor
  · rintro ⟨p, hp, hq⟩
    obtain ⟨q, hq, hr⟩ := map_eq_ok_iff.1 hq
    exact ⟨p, q, hp, hq, hr⟩
  · rintro ⟨p, q, hp, hq, hr⟩
    exact ⟨p, hp, map_eq_ok_iff.2 ⟨q, hq, hr⟩⟩

theorem Sequential.closed (hpass : Sequential pass) (h : SettlesIn pass n s t) (hs : Closed s) :
    Closed t := by
  induction h with
  | idle last => exact (hpass.asClosed last hs).1
  | busy first working rest ih => exact ih (hpass.asClosed first hs).1

/-- The first pass over the whole is a first pass over each part. -/
theorem Sequential.first_iff (hpass : Sequential pass) (hs : Closed s) {r : Pass} :
    pass (s ++ t) = .ok r ↔ ∃ p q, pass s = .ok p ∧ pass t = .ok q ∧ p.append q = r := by
  rw [hpass.append hs, Pass.andThen_eq_ok_iff]

/-- Two parts that settle do so together, in the greater number of passes. -/
theorem Sequential.settlesIn_append (hpass : Sequential pass) (hs : Closed s)
    (hv : SettlesIn pass m s v) (hw : SettlesIn pass n t w) :
    SettlesIn pass (max m n) (s ++ t) (v ++ w) := by
  induction hv generalizing n t with
  | @idle s v hlast =>
      -- The first part stays as it is in every pass that the second one still takes.
      obtain rfl := hpass.idle hlast
      induction hw with
      | idle hlast' => exact .idle ((hpass.first_iff hs).2 ⟨_, _, hlast, hlast', rfl⟩)
      | busy hfirst hworking hrest ih =>
          rw [Nat.zero_max] at ih ⊢
          exact .busy ((hpass.first_iff hs).2 ⟨_, _, hlast, hfirst, rfl⟩)
            (Nat.add_pos_right 0 hworking) ih
  | @busy m s v p hfirst hworking hrest ih =>
      have hp : Closed p.text := (hpass.asClosed hfirst hs).1
      cases hw with
      | idle hlast =>
          obtain rfl := hpass.idle hlast
          have hboth := ih hp (.idle hlast)
          rw [Nat.max_zero] at hboth ⊢
          exact .busy ((hpass.first_iff hs).2 ⟨_, _, hfirst, hlast, rfl⟩)
            (Nat.add_pos_left hworking 0) hboth
      | busy hfirst' hworking' hrest' =>
          rw [Nat.succ_max_succ]
          exact .busy ((hpass.first_iff hs).2 ⟨_, _, hfirst, hfirst', rfl⟩)
            (Nat.add_pos_left hworking _) (ih hp hrest')

/-- A part that settles after a pass settles: if the pass had nothing to do there is
    nothing more, and else there is one pass more. -/
theorem Sequential.settlesIn_after (hpass : Sequential pass) {p : Pass} (hp : pass s = .ok p)
    (h : SettlesIn pass n p.text v) :
    p.processed = 0 ∧ n = 0 ∧ SettlesIn pass 0 s v ∨
      0 < p.processed ∧ SettlesIn pass (n + 1) s v := by
  rcases Nat.eq_zero_or_pos p.processed with hidle | hbusy
  · obtain ⟨text, processed⟩ := p
    subst hidle
    obtain rfl := hpass.idle hp
    obtain ⟨rfl, rfl⟩ := (settlesIn_idle_iff hp rfl).1 h
    exact .inl ⟨rfl, rfl, h⟩
  · exact .inr ⟨hbusy, .busy hp hbusy h⟩

/-- A stage of a closed text and another one behind it settles as it does on each, in
    as many passes as the slower of the two takes. -/
theorem Sequential.settlesIn_append_iff (hpass : Sequential pass) (hs : Closed s) :
    SettlesIn pass n (s ++ t) u ↔
      ∃ i j v w, SettlesIn pass i s v ∧ SettlesIn pass j t w ∧ n = max i j ∧ u = v ++ w := by
  constructor
  · intro h
    induction n generalizing s t with
    | zero =>
        cases h with
        | idle last =>
            obtain ⟨⟨v, k⟩, ⟨w, l⟩, hp, hq, heq⟩ := (hpass.first_iff hs).1 last
            rw [Pass.append, Pass.mk.injEq] at heq
            obtain ⟨rfl, hcount⟩ := heq
            obtain ⟨rfl, rfl⟩ := Nat.add_eq_zero_iff.1 hcount
            exact ⟨0, 0, v, w, .idle hp, .idle hq, rfl, rfl⟩
    | succ n ih =>
        cases h with
        | busy first working rest =>
            -- At least one of the parts had something to do in the first pass.
            obtain ⟨p, q, hp, hq, rfl⟩ := (hpass.first_iff hs).1 first
            obtain ⟨i, j, v, w, hv, hw, rfl, rfl⟩ := ih (hpass.asClosed hp hs).1 rest
            rcases hpass.settlesIn_after hp hv with ⟨hk, rfl, hv'⟩ | ⟨-, hv'⟩
            · rcases hpass.settlesIn_after hq hw with ⟨hl, -, -⟩ | ⟨-, hw'⟩
              · exact absurd (Nat.add_eq_zero_iff.2 ⟨hk, hl⟩) working.ne'
              · exact ⟨0, j + 1, v, w, hv', hw', by omega, rfl⟩
            · rcases hpass.settlesIn_after hq hw with ⟨-, rfl, hw'⟩ | ⟨-, hw'⟩
              · exact ⟨i + 1, 0, v, w, hv', hw', by omega, rfl⟩
              · exact ⟨i + 1, j + 1, v, w, hv', hw', by omega, rfl⟩
  · rintro ⟨i, j, v, w, hv, hw, rfl, rfl⟩
    exact hpass.settlesIn_append hs hv hw

/-- A stage settles on a closed text and another one behind it exactly if it does on
    both, whatever the limit is. -/
theorem Sequential.settle_append_iff (hpass : Sequential pass) (hs : Closed s) :
    settle stage limit (fun s => (pass s).map Pass.toPair) (s ++ t) = .ok u ↔
      ∃ v w, settle stage limit (fun s => (pass s).map Pass.toPair) s = .ok v ∧
        settle stage limit (fun s => (pass s).map Pass.toPair) t = .ok w ∧ u = v ++ w := by
  simp only [settle, settleWithin_iff, hpass.settlesIn_append_iff hs]
  constructor
  · rintro ⟨_, hlt, i, j, v, w, hv, hw, rfl, rfl⟩
    rw [Nat.max_lt] at hlt
    exact ⟨v, w, ⟨i, hlt.1, hv⟩, ⟨j, hlt.2, hw⟩, rfl⟩
  · rintro ⟨v, w, ⟨i, hi, hv⟩, ⟨j, hj, hw⟩, rfl⟩
    exact ⟨max i j, Nat.max_lt.2 ⟨hi, hj⟩, i, j, v, w, hv, hw, rfl, rfl⟩

/-- A stage leaves a closed text closed. -/
theorem Sequential.closed_of_settle (hpass : Sequential pass) (hs : Closed s)
    (h : settle stage limit (fun s => (pass s).map Pass.toPair) s = .ok v) : Closed v := by
  obtain ⟨passes, -, hsettles⟩ := settleWithin_iff.1 h
  exact hpass.closed hsettles hs

end Stages

/-! ## Anchors -/

/-- No anchor reaches out of a closed text: the outline of it and another text behind it
    has the text and the objects of both. -/
theorem outline_append {s : Text} (hs : Closed s) (t : Text) :
    (outline (s ++ t)).content = (outline s).content ++ (outline t).content ∧
      ∀ position, (outline (s ++ t)).objects position = (outline s).objects position ++
        (outline t).objects (position + (outline s).content.length) := by
  induction s using outline_induction with
  | plain s hopen =>
      obtain ⟨hcontent, hobjects⟩ :=
        outlinesTo_of_anchorOpen (anchorOpen_append_of_closed hs hopen) t
      simp only [Outline.content, Outline.objects, List.append_nil, List.nil_append]
      exact ⟨hcontent, hobjects⟩
  | literal before r hopen hnone ih =>
      have hgroup : Closed ('\x7b' :: '<' :: r) := hs.of_append
      have hopen' := anchorOpen_append_of_lt (anchorOpen_lt hopen) t
      rw [hopen, List.append_assoc, List.cons_append, List.cons_append] at hopen'
      obtain ⟨hcontent, hobjects⟩ := ih (hgroup.of_append (s := ['\x7b']))
      rw [List.cons_append] at hcontent hobjects
      rw [List.append_assoc, List.cons_append, List.cons_append,
        outline_open hopen' (not_group_append hgroup hnone t)]
      constructor
      · simp only [Outline.content, hcontent, List.append_assoc]
      · intro position
        simp only [Outline.content, Outline.objects, hobjects, List.length_append, Nat.add_assoc]
  | anchor before r after hopen hr hacc ihp ihr =>
      have hopen' := anchorOpen_append_of_lt (anchorOpen_lt hopen) t
      rw [hopen, List.append_assoc, List.cons_append, List.cons_append, List.append_assoc,
        List.cons_append] at hopen'
      have hafter : Closed after := by
        have hgroup : Closed ('\x7b' :: ('<' :: r ++ '\x7d' :: after)) := hs.of_append
        exact hgroup.after_group
      obtain ⟨hcontent, hobjects⟩ := ihr hafter
      rw [List.append_assoc, List.cons_append, List.cons_append, List.append_assoc,
        List.cons_append, outline_group hopen' hr hacc]
      constructor
      · simp only [Outline.content, hcontent, List.append_assoc]
      · intro position
        simp only [Outline.content, Outline.objects, hobjects, List.length_append,
          List.cons_append, List.append_assoc, Nat.add_assoc]

/-! ## Rendering -/

/-- A closed text and any text behind it render to what they render to by themselves, if
    all values are closed: the whole succeeds exactly if both do, and then its text and
    its objects are those of the first and, moved on by the length of the first text,
    those of the second. -/
theorem render_append (context : Context) (config : Config) (injections : List (Text × Text))
    (metaObjects : List MetaObject) (a b : Text)
    (hcontext : ∀ name value, context.injections.get? name = some value → Closed value)
    (hdeclared : ∀ pair ∈ injections, Closed pair.2) (ha : Closed a) (rendered : Rendered) :
    Document.render ⟨a ++ b, injections, metaObjects⟩ context config = .ok rendered ↔
      ∃ first second, Document.render ⟨a, injections, metaObjects⟩ context config = .ok first ∧
        Document.render ⟨b, injections, metaObjects⟩ context config = .ok second ∧
        rendered = ⟨first.text ++ second.text, first.anchoredObjects ++
          second.anchoredObjects.map (later first.text.length), metaObjects⟩ := by
  have hvalues : ∀ name value, injectedValue? (context.injections.insertAll injections) name =
      some value → Closed value := by
    intro name value h
    exact Dict.forall_get?_insertAll hcontext hdeclared name value (injectedValue_eq_some_iff.1 h).1
  have hinject := inject_sequential hvalues
  have hevaluate := evaluate_sequential context config.variablePolicy
  -- The rendering of the whole, told from what the first two stages leave of the parts.
  have hwhole : ∀ {v w : Text}, Closed v →
      Rendered.mk (outline (v ++ w)).content ((outline (v ++ w)).objects 0) metaObjects =
        ⟨(outline v).content ++ (outline w).content, (outline v).objects 0 ++
          ((outline w).objects 0).map (later (outline v).content.length), metaObjects⟩ := by
    intro v w hv
    obtain ⟨hcontent, hobjects⟩ := outline_append hv w
    rw [hcontent, hobjects, Outline.objects_add]
  constructor
  · intro h
    obtain ⟨u, x, hu, hx, rfl⟩ := Document.render_eq_ok_iff.1 h
    obtain ⟨v, w, hv, hw, rfl⟩ := (hinject.settle_append_iff ha).1 hu
    have hvclosed := hinject.closed_of_settle ha hv
    obtain ⟨y, z, hy, hz, rfl⟩ := (hevaluate.settle_append_iff hvclosed).1 hx
    refine ⟨_, _, Document.render_eq_ok_iff.2 ⟨v, y, hv, hy, rfl⟩,
      Document.render_eq_ok_iff.2 ⟨w, z, hw, hz, rfl⟩, ?_⟩
    exact hwhole (hevaluate.closed_of_settle hvclosed hy)
  · rintro ⟨first, second, hfirst, hsecond, rfl⟩
    obtain ⟨v, y, hv, hy, rfl⟩ := Document.render_eq_ok_iff.1 hfirst
    obtain ⟨w, z, hw, hz, rfl⟩ := Document.render_eq_ok_iff.1 hsecond
    have hvclosed := hinject.closed_of_settle ha hv
    refine Document.render_eq_ok_iff.2 ⟨v ++ w, y ++ z,
      (hinject.settle_append_iff ha).2 ⟨v, w, hv, hw, rfl⟩,
      (hevaluate.settle_append_iff hvclosed).2 ⟨y, z, hy, hz, rfl⟩, ?_⟩
    exact (hwhole (hevaluate.closed_of_settle hvclosed hy)).symm

/-- A surplus brace in the first text and a brace that stays open in the second. -/
theorem render_append_surplus :
    let context : Context :=
      { flags := .ofList [("f".toList, true)]
        injections := ({} : Dict Text).insertAll [("n".toList, "\x7bN\x7d".toList)] }
    let injections := [("m".toList, "\x7b< k:v M \x7d".toList)]
    let a := "\x7d\x7b f ? \x7b>n\x7d | no \x7d \x7b>m\x7d".toList
    let b := "\x7b-\x7b>m\x7d".toList
    let first : Rendered := ⟨"\x7d\x7bN\x7d M".toList,
      [⟨"M".toList, 5, .ofList [("k".toList, "v".toList)]⟩], []⟩
    let second : Rendered := ⟨"\x7b-M".toList,
      [⟨"M".toList, 2, .ofList [("k".toList, "v".toList)]⟩], []⟩
    Closed a ∧ ¬ Closed b ∧ Document.render ⟨a ++ b, injections, []⟩ context {} =
      .ok ⟨first.text ++ second.text, first.anchoredObjects ++
        second.anchoredObjects.map (later first.text.length), []⟩ := by
  intro context injections a b first second
  have hcontext : ∀ name value, context.injections.get? name = some value → Closed value :=
    Dict.forall_get?_insertAll (fun name value h => by simp at h) (by decide)
  have hfirst : Document.render ⟨a, injections, []⟩ context {} = .ok first := by decide +kernel
  have hsecond : Document.render ⟨b, injections, []⟩ context {} = .ok second := by decide +kernel
  have ha : Closed a := by decide +kernel
  have hb : ¬ Closed b := by decide +kernel
  exact ⟨ha, hb, (render_append context {} injections [] a b hcontext (by decide) ha _).2
    ⟨first, second, hfirst, hsecond, rfl⟩⟩

end StoryTemplate
