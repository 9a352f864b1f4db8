import StoryTemplate.Text.Basic

/-! # Dictionaries — names bound to values

    A dictionary keeps its entries in strictly ascending order of their names,
    character by character in code point order.  So every name is bound at most
    once, and two dictionaries are equal exactly when they bind the same names
    to the same values: the order of the writes leaves no trace.

    Main facts: `get?_insert` (the last write to a name wins and touches no other
    name), `get?_eq_some_iff` (a look-up finds exactly the entries) and `ext_get?`
    (look-ups determine the dictionary). -/

namespace StoryTemplate

/-- Bindings of names to values, in strictly ascending order of the names. -/
structure Dict (α : Type) where
  entries : List (Text × α)
  ascending : (entries.map Prod.fst).Pairwise (· < ·)

namespace Dict

variable {α : Type}

instance : EmptyCollection (Dict α) := ⟨⟨[], by simp⟩⟩

instance : Inhabited (Dict α) := ⟨∅⟩

instance [DecidableEq α] : DecidableEq (Dict α) := fun a b =>
  decidable_of_iff (a.entries = b.entries)
    ⟨fun h => by cases a; cases b; simp_all, fun h => by rw [h]⟩

/-! ## Insertion -/

/-- Binds the name in an ascending list of entries, in place of an older
    binding. -/
def insertEntry (name : Text) (value : α) : List (Text × α) → List (Text × α)
  | [] => [(name, value)]
  | entry :: rest =>
    if name < entry.1 then (name, value) :: entry :: rest
    else if name = entry.1 then (name, value) :: rest
    else entry :: insertEntry name value rest

theorem mem_insertEntry_names {name n : Text} {value : α} {entries : List (Text × α)}
    (h : n ∈ (insertEntry name value entries).map Prod.fst) :
    n = name ∨ n ∈ entries.map Prod.fst := by
  induction entries with
  | nil => simpa [insertEntry] using h
  | cons entry rest ih =>
    unfold insertEntry at h
    split at h
    · simpa using h
    · split at h
      · rename_i heq
        simp only [List.map_cons, List.mem_cons] at h ⊢
        exact h.imp_right .inr
      · simp only [List.map_cons, List.mem_cons] at h ⊢
        rcases h with h | h
        · exact .inr (.inl h)
        · exact (ih h).imp_right .inr

theorem ascending_insertEntry (name : Text) (value : α) {entries : List (Text × α)}
    (h : (entries.map Prod.fst).Pairwise (· < ·)) :
    ((insertEntry name value entries).map Prod.fst).Pairwise (· < ·) := by
  induction entries with
  | nil => simp [insertEntry]
  | cons entry rest ih =>
    simp only [List.map_cons, List.pairwise_cons] at h
    unfold insertEntry
    split
    · rename_i hlt
      simp only [List.map_cons, List.pairwise_cons, List.mem_cons]
      refine ⟨?_, h⟩
      rintro n (rfl | hn)
      · exact hlt
      · exact List.lt_trans hlt (h.1 n hn)
    · rename_i hnlt
      split
      · rename_i heq
        simpa only [List.map_cons, List.pairwise_cons, heq] using h
      · rename_i hne
        simp only [List.map_cons, List.pairwise_cons]
        refine ⟨fun n hn => ?_, ih h.2⟩
        rcases mem_insertEntry_names hn with rfl | hn
        · exact Decidable.byContradiction fun hle => hne (List.le_antisymm hle hnlt)
        · exact h.1 n hn

/-- Binds the name to the value, in place of an older binding of the name. -/
def insert (d : Dict α) (name : Text) (value : α) : Dict α :=
  ⟨insertEntry name value d.entries, ascending_insertEntry name value d.ascending⟩

/-- Binds every pair in turn, so the last pair of a name wins. -/
def insertAll (d : Dict α) (pairs : List (Text × α)) : Dict α :=
  pairs.foldl (fun d pair => d.insert pair.1 pair.2) d

/-- The dictionary of the pairs; of two pairs with one name the later one
    counts. -/
def ofList (pairs : List (Text × α)) : Dict α := insertAll ∅ pairs

/-- Keeps the bindings that pass the test. -/
def filter (d : Dict α) (keep : Text → α → Bool) : Dict α :=
  ⟨d.entries.filter fun entry => keep entry.1 entry.2,
   d.ascending.sublist (List.filter_sublist.map Prod.fst)⟩

/-- Unbinds the name. -/
def erase (d : Dict α) (name : Text) : Dict α := d.filter fun n _ => n != name

/-! ## Look-up -/

/-- The value bound to the name. -/
def get? (d : Dict α) (name : Text) : Option α :=
  (d.entries.find? fun entry => entry.1 = name).map Prod.snd

/-- Whether the name is bound. -/
def contains (d : Dict α) (name : Text) : Bool := (d.get? name).isSome

/-- The bound names, in ascending order. -/
def names (d : Dict α) : List Text := d.entries.map Prod.fst

/-- The number of bound names. -/
def size (d : Dict α) : Nat := d.entries.length

/-- Whether nothing is bound. -/
def isEmpty (d : Dict α) : Bool := d.entries.isEmpty

/-! ## Laws -/

/-- A look-up finds exactly the entries. -/
theorem get?_eq_some_iff {d : Dict α} {name : Text} {value : α} :
    d.get? name = some value ↔ (name, value) ∈ d.entries := by
  obtain ⟨entries, asc⟩ := d
  simp only [get?]
  induction entries with
  | nil => simp
  | cons entry rest ih =>
    simp only [List.map_cons, List.pairwise_cons] at asc
    obtain ⟨n, v⟩ := entry
    by_cases hn : n = name
    · subst hn
      simp only [List.find?_cons, decide_true, Option.map_some, Option.some.injEq, List.mem_cons,
        Prod.mk.injEq, true_and]
      refine ⟨fun h => .inl h.symm, ?_⟩
      rintro (rfl | hmem)
      · rfl
      · exact absurd (asc.1 n (List.mem_map_of_mem (f := Prod.fst) hmem)) (List.lt_irrefl n)
    · simp only [List.find?_cons, hn, decide_false, List.mem_cons, Prod.mk.injEq]
      rw [ih asc.2]
      exact ⟨.inr, fun h => h.resolve_left fun heq => hn heq.1.symm⟩

theorem mem_insertEntry_iff {name : Text} {value : α} {entries : List (Text × α)}
    (h : (entries.map Prod.fst).Pairwise (· < ·)) {entry : Text × α} :
    entry ∈ insertEntry name value entries ↔
      entry = (name, value) ∨ entry.1 ≠ name ∧ entry ∈ entries := by
  induction entries with
  | nil => simp [insertEntry]
  | cons first rest ih =>
    simp only [List.map_cons, List.pairwise_cons] at h
    have above : ∀ e ∈ rest, first.1 < e.1 :=
      fun e he => h.1 _ (List.mem_map_of_mem (f := Prod.fst) he)
    unfold insertEntry
    split
    · rename_i hlt
      have apart : ∀ e ∈ first :: rest, e.1 ≠ name := by
        intro e he heq
        rcases List.mem_cons.1 he with rfl | he
        · exact absurd (heq ▸ hlt) (List.lt_irrefl _)
        · exact absurd (List.lt_trans hlt (heq ▸ above e he)) (List.lt_irrefl _)
      rw [List.mem_cons]
      exact or_congr_right ⟨fun he => ⟨apart _ he, he⟩, And.right⟩
    · split
      · rename_i heq
        have apart : ∀ e ∈ rest, e.1 ≠ name := fun e he h' =>
          absurd (heq ▸ h' ▸ above e he) (List.lt_irrefl _)
        simp only [List.mem_cons]
        refine or_congr_right ⟨fun he => ⟨apart _ he, .inr he⟩, ?_⟩
        rintro ⟨hne, rfl | he⟩
        · exact absurd heq.symm hne
        · exact he
      · rename_i hne
        simp only [List.mem_cons, ih h.2]
        constructor
        · rintro (rfl | rfl | ⟨hn, he⟩)
          · exact .inr ⟨Ne.symm hne, .inl rfl⟩
          · exact .inl rfl
          · exact .inr ⟨hn, .inr he⟩
        · rintro (rfl | ⟨hn, rfl | he⟩)
          · exact .inr (.inl rfl)
          · exact .inl rfl
          · exact .inr (.inr ⟨hn, he⟩)

theorem get?_insert (d : Dict α) (name : Text) (value : α) (n : Text) :
    (d.insert name value).get? n = if n = name then some value else d.get? n := by
  ext v
  rw [get?_eq_some_iff]
  simp only [insert, mem_insertEntry_iff d.ascending, Prod.mk.injEq]
  split
  · rename_i heq
    simp [heq, eq_comm]
  · rename_i hne
    simp [hne, get?_eq_some_iff]

/-- A written name reads back. -/
theorem get?_insert_self (d : Dict α) (name : Text) (value : α) :
    (d.insert name value).get? name = some value := by
  simp [get?_insert]

@[simp] theorem get?_empty (name : Text) : (∅ : Dict α).get? name = none := rfl

theorem get?_filter (d : Dict α) (keep : Text → α → Bool) (name : Text) :
    (d.filter keep).get? name = (d.get? name).filter (keep name) := by
  ext v
  rw [get?_eq_some_iff, Option.filter_eq_some_iff, get?_eq_some_iff]
  simp [filter]

theorem get?_erase (d : Dict α) (name n : Text) :
    (d.erase name).get? n = if n = name then none else d.get? n := by
  rw [erase, get?_filter]
  split
  · rename_i heq
    cases d.get? n <;> simp [heq]
  · rename_i hne
    cases d.get? n <;> simp [hne]

theorem mem_names_iff {d : Dict α} {name : Text} :
    name ∈ d.names ↔ ∃ value, d.get? name = some value := by
  simp [names, get?_eq_some_iff]

/-- Look-ups determine the dictionary. -/
theorem ext_get? {a b : Dict α} (h : ∀ name, a.get? name = b.get? name) : a = b := by
  have hmem : ∀ entry, entry ∈ a.entries ↔ entry ∈ b.entries := fun entry => by
    rw [← get?_eq_some_iff (d := a), ← get?_eq_some_iff (d := b), h]
  obtain ⟨xs, hx⟩ := a
  obtain ⟨ys, hy⟩ := b
  congr
  clear h
  simp only at hmem
  induction xs generalizing ys with
  | nil =>
    cases ys with
    | nil => rfl
    | cons y ys => exact absurd ((hmem y).2 (.head _)) (by simp)
  | cons x xs ih =>
    cases ys with
    | nil => exact absurd ((hmem x).1 (.head _)) (by simp)
    | cons y ys =>
      simp only [List.map_cons, List.pairwise_cons] at hx hy
      have below : ∀ {entry : Text × α} {n : Text} {rest : List (Text × α)},
          (∀ m ∈ rest.map Prod.fst, n < m) → entry ∈ rest → n < entry.1 :=
        fun hlt hin => hlt _ (List.mem_map_of_mem (f := Prod.fst) hin)
      have heq : x = y := by
        rcases List.mem_cons.1 ((hmem x).1 (.head _)) with hxy | hxy
        · exact hxy
        · rcases List.mem_cons.1 ((hmem y).2 (.head _)) with hyx | hyx
          · exact hyx.symm
          · exact absurd (List.lt_trans (below hx.1 hyx) (below hy.1 hxy)) (List.lt_irrefl _)
      subst heq
      refine congrArg (x :: ·) (ih hx.2 ys hy.2 fun entry => ?_)
      constructor
      · intro hin
        refine (List.mem_cons.1 ((hmem entry).1 (.tail _ hin))).resolve_left ?_
        rintro rfl
        exact absurd (below hx.1 hin) (List.lt_irrefl _)
      · intro hin
        refine (List.mem_cons.1 ((hmem entry).2 (.tail _ hin))).resolve_left ?_
        rintro rfl
        exact absurd (below hy.1 hin) (List.lt_irrefl _)

end Dict
end StoryTemplate
