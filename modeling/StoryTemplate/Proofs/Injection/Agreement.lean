import StoryTemplate.Proofs.Injection.Expanding
import StoryTemplate.Proofs.Stages

/-! # Agreement — depth-first passes against plain ones

    Repeating plain passes and repeating depth-first passes are two ways of
    rewriting the same text.  By random descent they end in the same text after
    the same number of steps, and since a depth-first pass gets at least as far
    as a plain one, it is never behind.

    Main facts: `Rewriter.exists_settles` (a way to a text without expressions is
    found by passes of either kind), `settles_inject_le` (depth-first passes are
    not more than plain ones), `depthFirst_agrees_with_plain` and
    `Document.injected_iff` (what the first stage of a rendering comes to). -/

namespace StoryTemplate

/-- Repeating the pass rewrites the text in `passes` passes, which process `total`
    expressions, to a text without expressions; the pass after them comes back
    empty. -/
inductive Settles (pass : Text → Except Fault Pass) :
    (passes : Nat) → Text → (total : Nat) → Text → Prop
  | empty {t : Text} (none : findInjection? t = none) (last : pass t = .ok ⟨t, 0⟩) :
      Settles pass 0 t 0 t
  | next {passes total : Nat} {t u : Text} {p : Pass} (first : pass t = .ok p)
      (rewriting : 0 < p.processed) (rest : Settles pass passes p.text total u) :
      Settles pass (passes + 1) t (p.processed + total) u

/-- What the two kinds of passes have in common: a pass makes a step for every
    expression that it processes, and it does so wherever something comes of it. -/
structure Rewriter (source : Dict Text) (pass : Text → Except Fault Pass) : Prop where
  steps {t : Text} {p : Pass} : pass t = .ok p → Steps source p.processed t p.text
  succeeds {n : Nat} {t u : Text} : Steps source n t u → findInjection? u = none →
    ∃ p, pass t = .ok p
  idle {t : Text} : findInjection? t = none → pass t = .ok ⟨t, 0⟩
  pos {t : Text} {p : Pass} {found : InjectionMatch} : findInjection? t = some found →
    pass t = .ok p → 0 < p.processed

variable {source : Dict Text} {pass : Text → Except Fault Pass} {s t u : Text}
  {j k n : Nat}

theorem plainPass_rewriter (source : Dict Text) : Rewriter source (plainPass source) where
  steps := plainPass_steps
  succeeds h hu := exists_plainPass (h.not_stuck hu)
  idle := plainPass_none
  pos := plainPass_pos

theorem inject_rewriter (source : Dict Text) : Rewriter source (inject source) where
  steps := inject_steps
  succeeds := exists_inject
  idle := inject_none
  pos := inject_pos

/-! ## Passes of either kind -/

/-- The last text has no expressions. -/
theorem Settles.findInjection (h : Settles pass n t k u) : findInjection? u = none := by
  induction h with
  | empty none last => exact none
  | next first rewriting rest ih => exact ih

/-- The passes make a step for every expression that they process. -/
theorem Settles.steps (h : Settles pass n t k u) (hpass : Rewriter source pass) :
    Steps source k t u := by
  induction h with
  | empty none last => exact .refl _
  | next first rewriting rest ih => exact (hpass.steps first).trans ih

/-- A way to a text without expressions is found by repeating the pass. -/
theorem Rewriter.exists_settles (hpass : Rewriter source pass) (h : Steps source k t u)
    (hu : findInjection? u = none) : ∃ n, Settles pass n t k u := by
  induction k using Nat.strongRecOn generalizing t with
  | ind k ih =>
      obtain ⟨p, hp⟩ := hpass.succeeds h hu
      obtain ⟨j, rfl, hrest⟩ := h.descent hu (hpass.steps hp)
      cases hfind : findInjection? t with
      | none =>
          rw [hpass.idle hfind, Except.ok.injEq] at hp
          subst hp
          obtain rfl := h.normal_unique (.refl t) hu hfind
          obtain rfl := hrest.count_unique (.refl u) hu
          exact ⟨0, .empty hfind (hpass.idle hfind)⟩
      | some found =>
          have hpos := hpass.pos hfind hp
          obtain ⟨n, hn⟩ := ih j (by omega) hrest
          exact ⟨n + 1, .next hp hpos hn⟩

/-! ## One kind against the other -/

/-- Depth-first passes that start from a text further on than plain ones stay
    ahead of them. -/
theorem settles_inject_le (h : Settles (plainPass source) n s k u) (hst : Steps source j s t) :
    ∃ m, m ≤ n ∧ ∃ r, Settles (inject source) m t r u := by
  induction h generalizing j t with
  | empty none last =>
      cases hst with
      | refl => exact ⟨0, le_refl 0, 0, .empty none (inject_none none)⟩
      | head first rest => exact absurd none first.findInjection_ne_none
  | @next passes total s u p first rewriting rest ih =>
      have hu := rest.findInjection
      have hsu := (Settles.next first rewriting rest).steps (plainPass_rewriter source)
      obtain ⟨r, -, htu⟩ := hsu.descent hu hst
      cases hfind : findInjection? t with
      | none =>
          obtain rfl := htu.normal_unique (.refl t) hu hfind
          exact ⟨0, Nat.zero_le _, 0, .empty hfind (inject_none hfind)⟩
      | some found =>
          obtain ⟨q, hq⟩ := exists_plainPass (htu.not_stuck hu)
          obtain ⟨p', hp'⟩ := exists_inject htu hu
          -- From the plain pass over `s` to that over `t`, and on to the pass over `t`.
          obtain ⟨a, ha⟩ := plainPass_mono hsu hu hst first hq
          obtain ⟨b, hb⟩ := inject_ahead hp' hq
          obtain ⟨m, hm, r, hr⟩ := ih (ha.trans hb)
          exact ⟨m + 1, Nat.succ_le_succ hm, _, .next hp' (inject_pos hfind hp') hr⟩

/-- If plain passes come to a text without expressions, depth-first passes come to
    the same text in at most as many passes, and process as many expressions;
    and if depth-first passes come to one, so do plain passes. -/
theorem depthFirst_agrees_with_plain (source : Dict Text) (t u : Text) (total : Nat) :
    (∀ n, Settles (plainPass source) n t total u →
      ∃ m, m ≤ n ∧ Settles (inject source) m t total u) ∧
    (∀ m, Settles (inject source) m t total u →
      ∃ n, Settles (plainPass source) n t total u) := by
  refine ⟨fun n hplain => ?_, fun m hinject => ?_⟩
  · obtain ⟨m, hm, total', hinject⟩ := settles_inject_le hplain (.refl t)
    have hsteps := hplain.steps (plainPass_rewriter source)
    have hsteps' := hinject.steps (inject_rewriter source)
    rw [← hsteps'.count_unique hsteps hplain.findInjection]
    exact ⟨m, hm, hinject⟩
  · exact (plainPass_rewriter source).exists_settles
      (hinject.steps (inject_rewriter source)) hinject.findInjection

/-- A value that names another one takes two plain passes and one depth-first
    pass. -/
theorem depthFirst_agrees_with_plain_chain :
    let source : Dict Text := ({} : Dict Text).insertAll
      [("a".toList, "\x7b>b\x7d".toList), ("b".toList, "Z".toList)]
    Settles (plainPass source) 2 "\x7b>a\x7d".toList 2 "Z".toList ∧
    Settles (inject source) 1 "\x7b>a\x7d".toList 2 "Z".toList ∧
    (∃ m, m ≤ 2 ∧ Settles (inject source) m "\x7b>a\x7d".toList 2 "Z".toList) ∧
    ∃ n, Settles (plainPass source) n "\x7b>a\x7d".toList 2 "Z".toList := by
  intro source
  have hplain : Settles (plainPass source) 2 "\x7b>a\x7d".toList 2 "Z".toList := by
    have first : plainPass source "\x7b>a\x7d".toList = .ok ⟨"\x7b>b\x7d".toList, 1⟩ := by
      decide +kernel
    have second : plainPass source "\x7b>b\x7d".toList = .ok ⟨"Z".toList, 1⟩ := by decide +kernel
    exact .next first Nat.one_pos (.next second Nat.one_pos (.empty (by decide) (by decide +kernel)))
  have hinject : Settles (inject source) 1 "\x7b>a\x7d".toList 2 "Z".toList := by
    have first : inject source "\x7b>a\x7d".toList = .ok ⟨"Z".toList, 2⟩ := by decide +kernel
    exact .next first Nat.two_pos (.empty (by decide) (by decide +kernel))
  have h := depthFirst_agrees_with_plain source "\x7b>a\x7d".toList "Z".toList 2
  exact ⟨hplain, hinject, h.1 2 hplain, h.2 1 hinject⟩

/-! ## The stage of a rendering -/

/-- A depth-first pass that processes nothing has left no expression. -/
theorem settlesIn_inject_iff :
    SettlesIn (inject source) n t u ↔ ∃ total, Settles (inject source) n t total u := by
  constructor
  · intro h
    induction h with
    | idle last =>
        obtain ⟨rfl, hfind⟩ := inject_idle_iff.1 last
        exact ⟨0, .empty hfind last⟩
    | busy first working rest ih =>
        obtain ⟨total, htotal⟩ := ih
        exact ⟨_, .next first working htotal⟩
  · rintro ⟨total, h⟩
    induction h with
    | empty none last => exact .idle last
    | next first rewriting rest ih => exact .busy first rewriting ih

/-- The first stage of a rendering comes to the text that depth-first passes come
    to, if the limit allows as many of them. -/
theorem Document.injected_iff {document : Document} {context : Context} {config : Config}
    (hroom : config.limit.toNat < UInt64.size - 1) :
    document.injected context config = .ok u ↔
      ∃ m, m ≤ config.limit.toNat ∧
        ∃ total, Settles (inject (document.source context)) m document.data total u := by
  rw [injected, settle_eq hroom, settleWithin_iff]
  simp only [Nat.lt_succ_iff, settlesIn_inject_iff]

end StoryTemplate
