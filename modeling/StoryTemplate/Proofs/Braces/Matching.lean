import StoryTemplate.Braces

/-! # Matching — where a group ends, told from its text alone

    The scan for the pairs of a text keeps a stack of all braces that are still
    open.  What it finds for one of them nevertheless depends only on the text
    after that brace: the group ends where as many groups have been closed as
    were opened in it.  The route:

    * `levelAfter` counts the open groups, and a text is `Balanced` if the count
      comes back to nothing without ever falling below;
    * `closingOffset` looks for the end of an enclosing group, and
      `closingOffset_eq_some_iff` says that a balanced text stands before it;
    * `scan_of_mem` and `scan_of_not_mem` follow one entry of the map through
      the scan, and `close_ofText` reads the whole map off them.

    Main fact: `close_ofText_iff` (a brace is closed exactly by the brace after
    the balanced text that begins behind it). -/

namespace StoryTemplate

/-! ## Counting open groups -/

/-- How many groups are open after the text if `depth` are open before it; none
    if the text closes one too many. -/
def levelAfter : Nat → Text → Option Nat
  | depth, [] => some depth
  | depth, c :: rest =>
      if c = '\x7b' then levelAfter (depth + 1) rest
      else if c = '\x7d' then
        match depth with
        | 0 => none
        | depth + 1 => levelAfter depth rest
      else levelAfter depth rest

/-- Every brace of the text belongs to a pair within the text. -/
def Balanced (s : Text) : Prop := levelAfter 0 s = some 0

instance (s : Text) : Decidable (Balanced s) := inferInstanceAs (Decidable (_ = _))

/-- A character that is no brace. -/
def NoBrace (c : Char) : Prop := c ≠ '\x7b' ∧ c ≠ '\x7d'

instance (c : Char) : Decidable (NoBrace c) := inferInstanceAs (Decidable (_ ∧ _))

@[simp] theorem levelAfter_nil (depth : Nat) : levelAfter depth [] = some depth := by
  cases depth <;> rfl

@[simp] theorem levelAfter_open (depth : Nat) (s : Text) :
    levelAfter depth ('\x7b' :: s) = levelAfter (depth + 1) s := by
  cases depth <;> simp [levelAfter]

@[simp] theorem levelAfter_close_zero (s : Text) : levelAfter 0 ('\x7d' :: s) = none := by
  simp [levelAfter]

@[simp] theorem levelAfter_close_succ (depth : Nat) (s : Text) :
    levelAfter (depth + 1) ('\x7d' :: s) = levelAfter depth s := by
  simp [levelAfter]

theorem levelAfter_cons {c : Char} (h : NoBrace c) (depth : Nat) (s : Text) :
    levelAfter depth (c :: s) = levelAfter depth s := by
  cases depth <;> simp [levelAfter, h.1, h.2]

/-- A character opens a group, closes one or does neither. -/
theorem brace_cases (c : Char) : c = '\x7b' ∨ c = '\x7d' ∨ NoBrace c := by
  by_cases ho : c = '\x7b'
  · exact .inl ho
  · by_cases hc : c = '\x7d'
    · exact .inr (.inl hc)
    · exact .inr (.inr ⟨ho, hc⟩)

theorem noBrace_of_isBlank {c : Char} (h : isBlank c = true) : NoBrace c := by
  constructor <;> rintro rfl <;> exact absurd h (by decide)

theorem noBrace_of_isWord {c : Char} (h : isWord c = true) : NoBrace c := by
  constructor <;> rintro rfl <;> exact absurd h (by decide)

/-- Counting goes on where it stopped. -/
theorem levelAfter_append (depth : Nat) (s t : Text) :
    levelAfter depth (s ++ t) = (levelAfter depth s).bind fun d => levelAfter d t := by
  induction s generalizing depth with
  | nil => simp
  | cons c r ih =>
      rw [List.cons_append]
      rcases brace_cases c with rfl | rfl | hc
      · rw [levelAfter_open, levelAfter_open, ih]
      · cases depth with
        | zero => simp
        | succ d => rw [levelAfter_close_succ, levelAfter_close_succ, ih]
      · rw [levelAfter_cons hc, levelAfter_cons hc, ih]

/-- Groups opened further out stay open. -/
theorem levelAfter_add {depth after : Nat} {s : Text} (h : levelAfter depth s = some after)
    (outer : Nat) : levelAfter (depth + outer) s = some (after + outer) := by
  induction s generalizing depth with
  | nil =>
      rw [levelAfter_nil, Option.some.injEq] at h
      rw [levelAfter_nil, h]
  | cons c r ih =>
      rcases brace_cases c with rfl | rfl | hc
      · rw [levelAfter_open] at h ⊢
        rw [show depth + outer + 1 = depth + 1 + outer by omega]
        exact ih h
      · cases depth with
        | zero => simp at h
        | succ d =>
            rw [levelAfter_close_succ] at h
            rw [show d + 1 + outer = d + outer + 1 by omega, levelAfter_close_succ]
            exact ih h
      · rw [levelAfter_cons hc] at h ⊢
        exact ih h

/-! ## Balanced texts -/

theorem balanced_nil : Balanced [] := rfl

/-- One balanced text after another is balanced. -/
theorem Balanced.append {s t : Text} (hs : Balanced s) (ht : Balanced t) : Balanced (s ++ t) := by
  show levelAfter 0 (s ++ t) = some 0
  rw [levelAfter_append, hs]
  exact ht

/-- A balanced text between two braces is balanced. -/
theorem Balanced.group {s : Text} (hs : Balanced s) :
    Balanced ('\x7b' :: (s ++ ['\x7d'])) := by
  show levelAfter 0 ('\x7b' :: (s ++ ['\x7d'])) = some 0
  rw [levelAfter_open, levelAfter_append, levelAfter_add hs 1]
  simp

/-- A text without braces is balanced. -/
theorem balanced_of_noBrace {s : Text} (h : ∀ c ∈ s, NoBrace c) : Balanced s := by
  induction s with
  | nil => rfl
  | cons c r ih =>
      show levelAfter 0 (c :: r) = some 0
      rw [levelAfter_cons (h c (.head _))]
      exact ih fun x hx => h x (.tail _ hx)

/-- Without a balanced text in front a balanced text is balanced. -/
theorem Balanced.of_append_right {u v : Text} (h : Balanced (u ++ v)) (hu : Balanced u) :
    Balanced v := by
  have hv : levelAfter 0 (u ++ v) = some 0 := h
  rw [levelAfter_append, hu] at hv
  exact hv

/-- Without a balanced text behind it a balanced text is balanced. -/
theorem Balanced.of_append_left {u v : Text} (h : Balanced (u ++ v)) (hv : Balanced v) :
    Balanced u := by
  have huv : levelAfter 0 (u ++ v) = some 0 := h
  rw [levelAfter_append, Option.bind_eq_some_iff] at huv
  obtain ⟨d, hd, hrest⟩ := huv
  have hlevel := levelAfter_add hv d
  rw [Nat.zero_add, hrest, Option.some.injEq] at hlevel
  subst hlevel
  exact hd

/-! ## The end of an enclosing group -/

/-- How far into the text the brace stands that closes the group around it, if
    `depth` groups inside that one are open before the text. -/
def closingOffset : Nat → Text → Option Nat
  | _, [] => none
  | depth, c :: rest =>
      if c = '\x7b' then (closingOffset (depth + 1) rest).map (· + 1)
      else if c = '\x7d' then
        match depth with
        | 0 => some 0
        | depth + 1 => (closingOffset depth rest).map (· + 1)
      else (closingOffset depth rest).map (· + 1)

@[simp] theorem closingOffset_nil (depth : Nat) : closingOffset depth [] = none := by
  cases depth <;> rfl

@[simp] theorem closingOffset_open (depth : Nat) (s : Text) :
    closingOffset depth ('\x7b' :: s) = (closingOffset (depth + 1) s).map (· + 1) := by
  cases depth <;> simp [closingOffset]

@[simp] theorem closingOffset_close_zero (s : Text) :
    closingOffset 0 ('\x7d' :: s) = some 0 := by
  simp [closingOffset]

@[simp] theorem closingOffset_close_succ (depth : Nat) (s : Text) :
    closingOffset (depth + 1) ('\x7d' :: s) = (closingOffset depth s).map (· + 1) := by
  simp [closingOffset]

theorem closingOffset_cons {c : Char} (h : NoBrace c) (depth : Nat) (s : Text) :
    closingOffset depth (c :: s) = (closingOffset depth s).map (· + 1) := by
  cases depth <;> simp [closingOffset, h.1, h.2]

/-- Nothing in a text that leaves no group open closes the group around it; the
    next closing brace does. -/
theorem closingOffset_append_close {depth : Nat} {body : Text}
    (h : levelAfter depth body = some 0) (after : Text) :
    closingOffset depth (body ++ '\x7d' :: after) = some body.length := by
  induction body generalizing depth with
  | nil =>
      rw [levelAfter_nil, Option.some.injEq] at h
      subst h
      simp
  | cons c r ih =>
      rw [List.cons_append]
      rcases brace_cases c with rfl | rfl | hc
      · rw [levelAfter_open] at h
        rw [closingOffset_open, ih h]
        rfl
      · cases depth with
        | zero => simp at h
        | succ d =>
            rw [levelAfter_close_succ] at h
            rw [closingOffset_close_succ, ih h]
            rfl
      · rw [levelAfter_cons hc] at h
        rw [closingOffset_cons hc, ih h]
        rfl

/-- Only one balanced text ends at a closing brace. -/
theorem Balanced.close_unique {body body' after after' : Text} (h : Balanced body)
    (h' : Balanced body') (heq : body ++ '\x7d' :: after = body' ++ '\x7d' :: after') :
    body = body' ∧ after = after' := by
  have hlen := closingOffset_append_close h after
  rw [heq, closingOffset_append_close h' after', Option.some.injEq] at hlen
  obtain ⟨hbody, hafter⟩ := List.append_inj heq hlen.symm
  exact ⟨hbody, (List.cons.inj hafter).2⟩

/-- The text before the end of the enclosing group leaves no group open. -/
theorem exists_of_closingOffset {depth n : Nat} {s : Text} (h : closingOffset depth s = some n) :
    ∃ body after, s = body ++ '\x7d' :: after ∧ body.length = n ∧
      levelAfter depth body = some 0 := by
  induction s generalizing depth n with
  | nil => simp at h
  | cons c r ih =>
      -- One more character in front of a text that the hypothesis divides.
      have step : ∀ {d m : Nat}, (closingOffset d r).map (· + 1) = some m →
          (∀ body, levelAfter d body = some 0 → levelAfter depth (c :: body) = some 0) →
          ∃ body after, c :: r = body ++ '\x7d' :: after ∧ body.length = m ∧
            levelAfter depth body = some 0 := by
        intro d m hm hlevel
        obtain ⟨k, hk, rfl⟩ := Option.map_eq_some_iff.1 hm
        obtain ⟨body, after, rfl, rfl, hbody⟩ := ih hk
        exact ⟨c :: body, after, rfl, rfl, hlevel body hbody⟩
      rcases brace_cases c with rfl | rfl | hc
      · rw [closingOffset_open] at h
        exact step h fun body hb => by rw [levelAfter_open]; exact hb
      · cases depth with
        | zero =>
            rw [closingOffset_close_zero, Option.some.injEq] at h
            exact ⟨[], r, rfl, h, rfl⟩
        | succ d =>
            rw [closingOffset_close_succ] at h
            exact step h fun body hb => by rw [levelAfter_close_succ]; exact hb
      · rw [closingOffset_cons hc] at h
        exact step h fun body hb => by rw [levelAfter_cons hc]; exact hb

/-- The group around the text ends behind the text that leaves no group open. -/
theorem closingOffset_eq_some_iff {depth n : Nat} {s : Text} :
    closingOffset depth s = some n ↔
      ∃ body after, s = body ++ '\x7d' :: after ∧ body.length = n ∧
        levelAfter depth body = some 0 := by
  refine ⟨exists_of_closingOffset, ?_⟩
  rintro ⟨body, after, rfl, rfl, hbody⟩
  exact closingOffset_append_close hbody after

/-- A text that closes a group from outside it has an end for that group. -/
theorem closingOffset_isSome {depth inner after : Nat} {s : Text}
    (h : levelAfter (depth + inner + 1) s = some after) (hle : after ≤ depth) :
    ∃ n, closingOffset inner s = some n := by
  induction s generalizing inner with
  | nil =>
      rw [levelAfter_nil, Option.some.injEq] at h
      omega
  | cons c r ih =>
      rcases brace_cases c with rfl | rfl | hc
      · rw [levelAfter_open] at h
        obtain ⟨n, hn⟩ : ∃ n, closingOffset (inner + 1) r = some n := ih h
        exact ⟨n + 1, by rw [closingOffset_open, hn]; rfl⟩
      · rw [levelAfter_close_succ] at h
        cases inner with
        | zero => exact ⟨0, closingOffset_close_zero r⟩
        | succ i =>
            obtain ⟨n, hn⟩ := ih h
            exact ⟨n + 1, by rw [closingOffset_close_succ, hn]; rfl⟩
      · rw [levelAfter_cons hc] at h
        obtain ⟨n, hn⟩ := ih h
        exact ⟨n + 1, by rw [closingOffset_cons hc, hn]; rfl⟩

/-! ## The scan -/

namespace BraceMap

/-- The stack of a scan: distinct positions that have no pair yet. -/
structure Pending (closes : Array (Option Nat)) (opened : List Nat) : Prop where
  nodup : opened.Nodup
  unpaired : ∀ o ∈ opened, closes[o]? = some none

theorem Pending.lt_size {closes : Array (Option Nat)} {opened : List Nat}
    (h : Pending closes opened) {o : Nat} (ho : o ∈ opened) : o < closes.size :=
  (Array.getElem?_eq_some_iff.mp (h.unpaired o ho)).1

/-- A position that opens nothing leaves the stack as it is. -/
theorem Pending.skip {closes : Array (Option Nat)} {opened : List Nat}
    (h : Pending closes opened) : Pending (closes.push none) opened where
  nodup := h.nodup
  unpaired := fun o ho => by
    rw [Array.getElem?_push_lt (h.lt_size ho)]
    rw [← h.unpaired o ho, Array.getElem?_eq_getElem (h.lt_size ho)]

/-- A position that opens a group goes on the stack. -/
theorem Pending.push {closes : Array (Option Nat)} {opened : List Nat}
    (h : Pending closes opened) : Pending (closes.push none) (closes.size :: opened) where
  nodup := List.nodup_cons.2 ⟨fun hmem => Nat.lt_irrefl _ (h.lt_size hmem), h.nodup⟩
  unpaired := fun o ho => by
    rcases List.mem_cons.1 ho with rfl | ho
    · exact Array.getElem?_push_size
    · exact h.skip.unpaired o ho

/-- A position that closes a group takes its opening brace off the stack. -/
theorem Pending.pop {closes : Array (Option Nat)} {innermost : Nat} {outer : List Nat}
    (h : Pending closes (innermost :: outer)) (close : Nat) :
    Pending ((closes.setIfInBounds innermost (some close)).push none) outer where
  nodup := (List.nodup_cons.1 h.nodup).2
  unpaired := fun o ho => by
    have hne : innermost ≠ o := fun heq => (List.nodup_cons.1 h.nodup).1 (heq ▸ ho)
    rw [Array.getElem?_push, Array.size_setIfInBounds,
      if_neg (Nat.ne_of_lt (h.lt_size (.tail _ ho))), Array.getElem?_setIfInBounds_ne hne]
    exact h.unpaired o (.tail _ ho)

theorem getElem?_push_of_lt {closes : Array (Option Nat)} {o : Nat} (h : o < closes.size) :
    (closes.push none)[o]? = closes[o]? := by
  rw [Array.getElem?_push, if_neg (Nat.ne_of_lt h)]

@[simp] theorem scan_nil (closes : Array (Option Nat)) (opened : List Nat) :
    scan closes opened [] = closes := rfl

@[simp] theorem scan_open (closes : Array (Option Nat)) (opened : List Nat) (s : Text) :
    scan closes opened ('\x7b' :: s) = scan (closes.push none) (closes.size :: opened) s := by
  simp [scan]

@[simp] theorem scan_close_nil (closes : Array (Option Nat)) (s : Text) :
    scan closes [] ('\x7d' :: s) = scan (closes.push none) [] s := by
  simp [scan]

@[simp] theorem scan_close_cons (closes : Array (Option Nat)) (innermost : Nat)
    (outer : List Nat) (s : Text) :
    scan closes (innermost :: outer) ('\x7d' :: s) =
      scan ((closes.setIfInBounds innermost (some closes.size)).push none) outer s := by
  simp [scan]

theorem scan_cons {c : Char} (h : NoBrace c) (closes : Array (Option Nat)) (opened : List Nat)
    (s : Text) : scan closes opened (c :: s) = scan (closes.push none) opened s := by
  simp [scan, h.1, h.2]

/-- The scan has one entry for each character. -/
theorem size_scan (s : Text) (closes : Array (Option Nat)) (opened : List Nat) :
    (scan closes opened s).size = closes.size + s.length := by
  induction s generalizing closes opened with
  | nil => rfl
  | cons c r ih =>
      rw [List.length_cons]
      rcases brace_cases c with rfl | rfl | hc
      · rw [scan_open, ih, Array.size_push]
        omega
      · cases opened with
        | nil =>
            rw [scan_close_nil, ih, Array.size_push]
            omega
        | cons innermost outer =>
            rw [scan_close_cons, ih, Array.size_push, Array.size_setIfInBounds]
            omega
      · rw [scan_cons hc, ih, Array.size_push]
        omega

/-- What is settled before a scan stays as it is. -/
theorem scan_of_not_mem {closes : Array (Option Nat)} {opened : List Nat}
    (h : Pending closes opened) {o : Nat} (hlt : o < closes.size) (ho : o ∉ opened) (s : Text) :
    (scan closes opened s)[o]? = closes[o]? := by
  induction s generalizing closes opened with
  | nil => rfl
  | cons c r ih =>
      have hlt' : o < (closes.push none).size := by rw [Array.size_push]; omega
      rcases brace_cases c with rfl | rfl | hc
      · have hnew : o ∉ closes.size :: opened := fun hmem =>
          (List.mem_cons.1 hmem).elim (Nat.ne_of_lt hlt) ho
        rw [scan_open, ih h.push hlt' hnew, getElem?_push_of_lt hlt]
      · cases opened with
        | nil => rw [scan_close_nil, ih h.skip hlt' ho, getElem?_push_of_lt hlt]
        | cons innermost outer =>
            have hne : innermost ≠ o := fun heq => ho (heq ▸ .head _)
            have hset : o < (closes.setIfInBounds innermost (some closes.size)).size := by
              rw [Array.size_setIfInBounds]
              exact hlt
            have hpush : o < ((closes.setIfInBounds innermost (some closes.size)).push none).size := by
              rw [Array.size_push]
              omega
            rw [scan_close_cons, ih (h.pop _) hpush fun hmem => ho (.tail _ hmem),
              getElem?_push_of_lt hset, Array.getElem?_setIfInBounds_ne hne]
      · rw [scan_cons hc, ih h.skip hlt' ho, getElem?_push_of_lt hlt]

/-- A brace that is open when a scan begins is closed where the rest of the text
    closes it and the groups opened in it. -/
theorem scan_of_mem {closes : Array (Option Nat)} {opened : List Nat}
    (h : Pending closes opened) {o depth : Nat} (ho : opened[depth]? = some o) (s : Text) :
    (scan closes opened s)[o]? = some ((closingOffset depth s).map (closes.size + ·)) := by
  induction s generalizing closes opened depth with
  | nil => rw [scan_nil, closingOffset_nil, h.unpaired o (List.mem_of_getElem? ho)]; rfl
  | cons c r ih =>
      -- The scan goes on with one more entry and, it may be, another depth.
      have step : ∀ {closes' : Array (Option Nat)} {opened' : List Nat} {d : Nat},
          Pending closes' opened' → opened'[d]? = some o → closes'.size = closes.size + 1 →
          (scan closes' opened' r)[o]? =
            some (((closingOffset d r).map (· + 1)).map (closes.size + ·)) := by
        intro closes' opened' d h' ho' hsize
        rw [ih h' ho', hsize, Option.map_map]
        congr 2
        funext n
        show closes.size + 1 + n = closes.size + (n + 1)
        omega
      rcases brace_cases c with rfl | rfl | hc
      · rw [scan_open, closingOffset_open]
        exact step h.push ho (Array.size_push _)
      · cases opened with
        | nil => simp at ho
        | cons innermost outer =>
            have hsize : ((closes.setIfInBounds innermost (some closes.size)).push none).size =
                closes.size + 1 := by rw [Array.size_push, Array.size_setIfInBounds]
            rw [scan_close_cons]
            cases depth with
            | zero =>
                -- This is the brace that the character closes.
                obtain rfl : innermost = o := Option.some.inj ho
                have hlt : innermost < closes.size := h.lt_size (.head _)
                have hset : innermost <
                    (closes.setIfInBounds innermost (some closes.size)).size := by
                  rw [Array.size_setIfInBounds]
                  exact hlt
                rw [scan_of_not_mem (h.pop _) (by rw [hsize]; omega)
                  (List.nodup_cons.1 h.nodup).1, getElem?_push_of_lt hset,
                  Array.getElem?_setIfInBounds_self_of_lt hlt, closingOffset_close_zero]
                rfl
            | succ d =>
                rw [closingOffset_close_succ]
                exact step (h.pop _) ho hsize
      · rw [scan_cons hc, closingOffset_cons hc]
        exact step h.skip ho (Array.size_push _)

/-- A character that the scan has still to read opens a group if it is an opening
    brace that the text after it closes. -/
theorem scan_of_lt {closes : Array (Option Nat)} {opened : List Nat}
    (h : Pending closes opened) (s : Text) {i : Nat} (hi : i < s.length) :
    (scan closes opened s)[closes.size + i]? =
      some (if s[i]? = some '\x7b' then
        (closingOffset 0 (s.drop (i + 1))).map (closes.size + i + 1 + ·) else none) := by
  induction s generalizing closes opened i with
  | nil => simp at hi
  | cons c r ih =>
      cases i with
      | zero =>
          have hnew : closes.size < (closes.push none).size := by rw [Array.size_push]; omega
          have hnot : closes.size ∉ opened := fun hmem => Nat.lt_irrefl _ (h.lt_size hmem)
          rw [Nat.add_zero, List.getElem?_cons_zero, List.drop_one, List.tail_cons]
          rcases brace_cases c with rfl | rfl | hc
          · rw [scan_open, scan_of_mem h.push (List.getElem?_cons_zero), Array.size_push, if_pos rfl]
          · rw [if_neg (by decide)]
            cases opened with
            | nil =>
                rw [scan_close_nil, scan_of_not_mem h.skip hnew hnot, Array.getElem?_push_size]
            | cons innermost outer =>
                have hsize : (closes.setIfInBounds innermost (some closes.size)).size =
                    closes.size := Array.size_setIfInBounds
                rw [scan_close_cons, scan_of_not_mem (h.pop _)
                  (by rw [Array.size_push, hsize]; omega) fun hmem => hnot (.tail _ hmem),
                  Array.getElem?_push, hsize, if_pos rfl]
          · rw [scan_cons hc, scan_of_not_mem h.skip hnew hnot, Array.getElem?_push_size,
              if_neg fun heq => hc.1 (Option.some.inj heq)]
      | succ i =>
          have hi' : i < r.length := Nat.lt_of_succ_lt_succ hi
          have step : ∀ {closes' : Array (Option Nat)} {opened' : List Nat},
              Pending closes' opened' → closes'.size = closes.size + 1 →
              (scan closes' opened' r)[closes.size + (i + 1)]? =
                some (if r[i]? = some '\x7b' then
                  (closingOffset 0 (r.drop (i + 1))).map (closes.size + (i + 1) + 1 + ·)
                  else none) := by
            intro closes' opened' h' hsize
            rw [show closes.size + (i + 1) = closes'.size + i by omega]
            exact ih h' hi'
          rw [List.getElem?_cons_succ, List.drop_succ_cons]
          rcases brace_cases c with rfl | rfl | hc
          · rw [scan_open]
            exact step h.push (Array.size_push _)
          · cases opened with
            | nil =>
                rw [scan_close_nil]
                exact step h.skip (Array.size_push _)
            | cons innermost outer =>
                rw [scan_close_cons]
                exact step (h.pop _) (by rw [Array.size_push, Array.size_setIfInBounds])
          · rw [scan_cons hc]
            exact step h.skip (Array.size_push _)

/-! ## The pairs of a text -/

/-- The whole map, one position at a time. -/
theorem close_ofText (s : Text) (o : Nat) :
    (ofText s).close o =
      if s[o]? = some '\x7b' then (closingOffset 0 (s.drop (o + 1))).map (o + 1 + ·) else none := by
  show (scan #[] [] s)[o]?.join = _
  by_cases ho : o < s.length
  · have hpending : Pending #[] [] := ⟨.nil, by simp⟩
    have hscan := scan_of_lt hpending s ho
    rw [List.size_toArray, List.length_nil, Nat.zero_add] at hscan
    rw [hscan]
    rfl
  · rw [Array.getElem?_eq_none (by rw [size_scan]; simpa using ho),
      List.getElem?_eq_none (Nat.le_of_not_lt ho)]
    rfl

/-- The brace before a balanced text is closed by the brace after it. -/
theorem close_group (before : Text) {body : Text} (hbody : Balanced body) (after : Text) :
    (ofText (before ++ '\x7b' :: (body ++ '\x7d' :: after))).close before.length =
      some (before.length + 1 + body.length) := by
  have hdrop : (before ++ '\x7b' :: (body ++ '\x7d' :: after)).drop (before.length + 1) =
      body ++ '\x7d' :: after := by simp
  rw [close_ofText, if_pos (by simp), hdrop, closingOffset_append_close hbody]
  rfl

/-- A brace is closed exactly by the brace after the balanced text that begins
    behind it. -/
theorem close_ofText_iff {s : Text} {o c : Nat} :
    (ofText s).close o = some c ↔
      ∃ before body after, s = before ++ '\x7b' :: (body ++ '\x7d' :: after) ∧ Balanced body ∧
        before.length = o ∧ c = o + 1 + body.length := by
  constructor
  · intro h
    rw [close_ofText] at h
    by_cases ho : s[o]? = some '\x7b'
    · rw [if_pos ho] at h
      obtain ⟨n, hn, rfl⟩ := Option.map_eq_some_iff.1 h
      obtain ⟨body, after, hdrop, rfl, hbody⟩ := closingOffset_eq_some_iff.1 hn
      obtain ⟨hlt, hget⟩ := List.getElem?_eq_some_iff.1 ho
      refine ⟨s.take o, body, after, ?_, hbody, by simp [Nat.le_of_lt hlt], rfl⟩
      rw [← hdrop, ← hget, List.getElem_cons_drop, List.take_append_drop]
    · rw [if_neg ho] at h
      simp at h
  · rintro ⟨before, body, after, rfl, hbody, rfl, rfl⟩
    exact close_group before hbody after

end BraceMap
end StoryTemplate
