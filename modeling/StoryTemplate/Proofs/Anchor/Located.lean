import StoryTemplate.Proofs.Stages

/-! # Located — objects and the passages they name

    An object is no good without its place: its text must be what stands at its
    position, and of two objects one must lie in the other or before it.

    Main facts: `Outline.slice_objects` and `Outline.pairwise_objects` (the objects
    of any outline), `outline_located` (those of a text are located in what is
    left of it) and `anchoredObjects_located` (and so they are after any number of
    markings, and in every rendering). -/

namespace StoryTemplate

/-- Where the passage of an object ends. -/
def AnchoredObject.stop (object : AnchoredObject) : Nat := object.position + object.text.length

/-- Each object is a passage of the text with something in it; the passages are
    in the order in which they begin, and overlap only if a later one lies in an
    earlier one. -/
structure Located (text : Text) (objects : List AnchoredObject) : Prop where
  not_blank : ∀ object ∈ objects, isBlankText object.text = false
  slice : ∀ object ∈ objects,
    (text.drop object.position).take object.text.length = object.text
  in_order : objects.Pairwise fun a b => a.position ≤ b.position
  nested : objects.Pairwise fun a b =>
    a.stop ≤ b.position ∨ a.position ≤ b.position ∧ b.stop ≤ a.stop

namespace Outline

/-- The objects of an outline lie within its text. -/
theorem objects_within (o : Outline) (position : Nat) : ∀ object ∈ o.objects position,
    position ≤ object.position ∧ object.stop ≤ position + o.content.length := by
  induction o generalizing position with
  | nil => exact fun object hobject => nomatch hobject
  | text content rest ih =>
      intro object hobject
      obtain ⟨hle, hstop⟩ := ih _ object hobject
      rw [Outline.content, List.length_append]
      omega
  | anchor params payload rest ihp ihr =>
      intro object hobject
      rw [Outline.content, List.length_append]
      rcases List.mem_cons.1 hobject with rfl | hobject
      · refine ⟨Nat.le_refl _, ?_⟩
        show position + payload.content.length ≤ _
        omega
      · rcases List.mem_append.1 hobject with hobject | hobject
        · obtain ⟨hle, hstop⟩ := ihp _ object hobject
          omega
        · obtain ⟨hle, hstop⟩ := ihr _ object hobject
          omega

/-- The text of an object stands at its position. -/
theorem slice_objects (o : Outline) (before after : Text) :
    ∀ object ∈ o.objects before.length,
      ((before ++ (o.content ++ after)).drop object.position).take object.text.length =
        object.text := by
  induction o generalizing before after with
  | nil => exact fun object hobject => nomatch hobject
  | text content rest ih =>
      intro object hobject
      rw [objects, ← List.length_append] at hobject
      have hslice := ih (before ++ content) after object hobject
      rw [Outline.content]
      simpa only [List.append_assoc] using hslice
  | anchor params payload rest ihp ihr =>
      intro object hobject
      rw [Outline.content, List.append_assoc]
      rcases List.mem_cons.1 hobject with rfl | hobject
      · dsimp only
        rw [List.drop_left', List.take_left']
        · rfl
        · rfl
      · rcases List.mem_append.1 hobject with hobject | hobject
        · exact ihp before (rest.content ++ after) object hobject
        · rw [← List.length_append] at hobject
          have hslice := ihr (before ++ payload.content) after object hobject
          simpa only [List.append_assoc] using hslice

/-- Of two objects the earlier one begins first, and the later one lies in it or
    after it. -/
theorem pairwise_objects (o : Outline) (position : Nat) :
    (o.objects position).Pairwise fun a b =>
      a.position ≤ b.position ∧ (a.stop ≤ b.position ∨ b.stop ≤ a.stop) := by
  induction o generalizing position with
  | nil => exact .nil
  | text content rest ih => exact ih _
  | anchor params payload rest ihp ihr =>
      have hin := payload.objects_within position
      have hafter := rest.objects_within (position + payload.content.length)
      refine List.pairwise_cons.2 ⟨fun object hobject => ?_, List.pairwise_append.2
        ⟨ihp _, ihr _, fun a ha b hb => ?_⟩⟩
      · -- The objects of the payload lie in it, and the others after it.
        show position ≤ object.position ∧ (position + payload.content.length ≤ object.position ∨
          object.stop ≤ position + payload.content.length)
        rcases List.mem_append.1 hobject with hobject | hobject
        · obtain ⟨hle, hstop⟩ := hin object hobject
          exact ⟨hle, .inr hstop⟩
        · obtain ⟨hle, -⟩ := hafter object hobject
          exact ⟨Nat.le_trans (Nat.le_add_right _ _) hle, .inl hle⟩
      · obtain ⟨-, hstop⟩ := hin a ha
        obtain ⟨hle, -⟩ := hafter b hb
        have hstart : a.position ≤ a.stop := Nat.le_add_right _ _
        exact ⟨by omega, .inl (by omega)⟩

end Outline

/-! ## Payloads that are not blank -/

theorem isBlankText_append (s t : Text) : isBlankText (s ++ t) = (isBlankText s && isBlankText t) :=
  List.all_append

/-- Taking the anchors out of a text that is not blank leaves a text that is not
    blank, and no payload is blank. -/
theorem outline_not_blank (t : Text) :
    (isBlankText t = false → isBlankText (outline t).content = false) ∧
      ∀ position, ∀ object ∈ (outline t).objects position, isBlankText object.text = false := by
  induction t using outline_induction with
  | plain t hopen =>
      refine ⟨fun h => ?_, fun position object hobject => nomatch hobject⟩
      rw [Outline.content, Outline.content, List.append_nil]
      exact h
  | literal before r hopen hnone ih =>
      refine ⟨fun _ => ?_, fun position => ih.2 _⟩
      rw [Outline.content, isBlankText_append, isBlankText_append]
      have hbrace : isBlankText ['\x7b'] = false := by decide
      rw [hbrace, Bool.and_false, Bool.false_and]
  | anchor before r after hopen hr hacc ihp ihr =>
      have hpayload := ihp.1 hacc.2.2
      constructor
      · intro _
        rw [Outline.content, Outline.content, isBlankText_append, isBlankText_append, hpayload,
          Bool.false_and, Bool.and_false]
      · intro position object hobject
        rcases List.mem_cons.1 hobject with rfl | hobject
        · exact hpayload
        · rcases List.mem_append.1 hobject with hobject | hobject
          · exact ihp.2 _ object hobject
          · exact ihr.2 _ object hobject

/-- The objects of a text are located in what is left of it. -/
theorem outline_located (t : Text) : Located (outline t).content ((outline t).objects 0) where
  not_blank := (outline_not_blank t).2 0
  slice := fun object hobject => by
    have hslice := (outline t).slice_objects [] [] object hobject
    rwa [List.append_nil] at hslice
  in_order := ((outline t).pairwise_objects 0).imp And.left
  nested := ((outline t).pairwise_objects 0).imp fun h => h.2.imp id fun hstop => ⟨h.1, hstop⟩

theorem located_nil (text : Text) : Located text [] where
  not_blank := fun _ hobject => nomatch hobject
  slice := fun _ hobject => nomatch hobject
  in_order := .nil
  nested := .nil

/-! ## Any number of markings -/

/-- However often a text is marked, and however a text came to be rendered, the
    objects are located in the text that is left. -/
theorem anchoredObjects_located :
    (∀ (t : Text) (n : Nat),
      Located ((fun marking : Marking => marking.mark.1)^[n] (.ofText t)).resolve.1
        ((fun marking : Marking => marking.mark.1)^[n] (.ofText t)).resolve.2) ∧
    (∀ (document : Document) (context : Context) (config : Config) (rendered : Rendered),
      document.render context config = .ok rendered →
        Located rendered.text rendered.anchoredObjects) ∧
    ∀ (template : Text) (context : Context) (config : Config) (rendered : Rendered),
      render template context config = .ok rendered →
        Located rendered.text rendered.anchoredObjects := by
  have hdocument : ∀ (document : Document) (context : Context) (config : Config)
      (rendered : Rendered), document.render context config = .ok rendered →
        Located rendered.text rendered.anchoredObjects := by
    intro document context config rendered h
    obtain ⟨s, t, -, -, rfl⟩ := Document.exists_of_render h
    exact outline_located t
  refine ⟨?_, hdocument, ?_⟩
  · intro t n
    cases n with
    | zero => exact located_nil _
    | succ n =>
        rw [Marking.mark_iterate, Marking.mark_ofText, Marking.resolve_addTo]
        exact outline_located t
  · intro template context config rendered h
    obtain ⟨document, -, hrender⟩ := exists_of_render h
    exact hdocument document context config rendered hrender

/-- An anchor in an anchor, `{< k:v é {< a:b x }} y`: the object of the inner one lies
    in that of the outer one. -/
theorem anchoredObjects_located_nested :
    let objects : List AnchoredObject := [⟨"é x".toList, 0, .ofList [("k".toList, "v".toList)]⟩,
      ⟨"x".toList, 2, .ofList [("a".toList, "b".toList)]⟩]
    ((fun marking : Marking => marking.mark.1)^[2]
        (.ofText "\x7b< k:v é \x7b< a:b x \x7d\x7d y".toList)).resolve =
      ("é x y".toList, objects) ∧
    Document.render ⟨"\x7b< k:v é \x7b< a:b x \x7d\x7d y".toList, [], []⟩ {} {} =
      .ok ⟨"é x y".toList, objects, []⟩ ∧
    render "\x7b< k:v é \x7b< a:b x \x7d\x7d y".toList {} {} =
      .ok ⟨"é x y".toList, objects, []⟩ ∧
    Located "é x y".toList objects ∧ Located "é x y".toList objects := by
  intro objects
  have hdocument : Document.render ⟨"\x7b< k:v é \x7b< a:b x \x7d\x7d y".toList, [], []⟩ {} {} =
      .ok ⟨"é x y".toList, objects, []⟩ := by decide +kernel
  have hrender : render "\x7b< k:v é \x7b< a:b x \x7d\x7d y".toList {} {} =
      .ok ⟨"é x y".toList, objects, []⟩ := by decide +kernel
  exact ⟨by decide +kernel, hdocument, hrender,
    anchoredObjects_located.2.1 _ _ _ _ hdocument, anchoredObjects_located.2.2 _ _ _ _ hrender⟩

end StoryTemplate
