import StoryTemplate.Proofs.Braces.Matching

/-! # Locality — a pair of braces is a matter of the text between them

    The pairs of a text are the pairs of any part of it that holds them whole.
    Main facts: `close_append_right` and `close_append_left` (text before or
    after a group does not change it), `close_infix` (the two together),
    `close_inside` (groups are nested) and the laws of `Closed` texts, in which
    no group stays open. -/

namespace StoryTemplate
namespace BraceMap

/-! ## Text around a group -/

/-- Text in front shifts the pairs and changes nothing else. -/
theorem close_append_right (before s : Text) (o : Nat) :
    (ofText (before ++ s)).close (before.length + o) =
      ((ofText s).close o).map (before.length + ·) := by
  have hget : (before ++ s)[before.length + o]? = s[o]? := by
    rw [List.getElem?_append_right (Nat.le_add_right _ _), Nat.add_sub_cancel_left]
  have hdrop : (before ++ s).drop (before.length + o + 1) = s.drop (o + 1) := by
    rw [Nat.add_assoc, List.drop_append, List.drop_eq_nil_of_le (Nat.le_add_right _ _),
      List.nil_append, Nat.add_sub_cancel_left]
  rw [close_ofText, close_ofText, hget, hdrop]
  by_cases ho : s[o]? = some '\x7b'
  · rw [if_pos ho, if_pos ho, Option.map_map]
    congr 1
    funext n
    show before.length + o + 1 + n = before.length + (o + 1 + n)
    omega
  · rw [if_neg ho, if_neg ho]
    rfl

/-- Text behind a group does not change it. -/
theorem close_append_left {s : Text} {o c : Nat} (h : (ofText s).close o = some c)
    (after : Text) : (ofText (s ++ after)).close o = some c := by
  obtain ⟨before, body, rest, rfl, hbody, ho, hc⟩ := close_ofText_iff.1 h
  refine close_ofText_iff.2 ⟨before, body, rest ++ after, ?_, hbody, ho, hc⟩
  simp

/-- A group lies within its text. -/
theorem close_lt_length {s : Text} {o c : Nat} (h : (ofText s).close o = some c) :
    c < s.length := by
  obtain ⟨before, body, rest, rfl, -, ho, hc⟩ := close_ofText_iff.1 h
  simp only [List.length_append, List.length_cons]
  omega

/-- A group that ends within the first part of a text is one of that part. -/
theorem close_of_append {s after : Text} {o c : Nat}
    (h : (ofText (s ++ after)).close o = some c) (hc : c < s.length) :
    (ofText s).close o = some c := by
  obtain ⟨before, body, rest, heq, hbody, ho, hlen⟩ := close_ofText_iff.1 h
  have hpre : before ++ '\x7b' :: (body ++ ['\x7d']) <+: s := by
    have hwhole : before ++ '\x7b' :: (body ++ ['\x7d']) <+: s ++ after :=
      ⟨rest, by rw [heq]; simp⟩
    refine List.prefix_of_prefix_length_le hwhole (List.prefix_append _ _) ?_
    simp only [List.length_append, List.length_cons, List.length_nil]
    omega
  obtain ⟨rest', rfl⟩ := hpre
  refine close_ofText_iff.2 ⟨before, body, rest', ?_, hbody, ho, hlen⟩
  simp

/-- A part of a text has exactly those pairs of the text that lie in it. -/
theorem close_infix (before s after : Text) (o c : Nat) :
    (ofText s).close o = some c ↔
      (ofText (before ++ (s ++ after))).close (before.length + o) = some (before.length + c) ∧
        c < s.length := by
  rw [close_append_right, Option.map_eq_some_iff]
  constructor
  · intro h
    exact ⟨⟨c, close_append_left h after, rfl⟩, close_lt_length h⟩
  · rintro ⟨⟨c', h, heq⟩, hc⟩
    obtain rfl : c' = c := Nat.add_left_cancel heq
    exact close_of_append h hc

/-- Only an opening brace is closed. -/
theorem getElem?_of_close {s : Text} {o c : Nat} (h : (ofText s).close o = some c) :
    s[o]? = some '\x7b' := by
  rw [close_ofText] at h
  by_cases ho : s[o]? = some '\x7b'
  · exact ho
  · rw [if_neg ho] at h
    exact nomatch h

/-- Only a closing brace closes. -/
theorem getElem?_close {s : Text} {o c : Nat} (h : (ofText s).close o = some c) :
    s[c]? = some '\x7d' := by
  obtain ⟨before, body, rest, rfl, -, rfl, rfl⟩ := close_ofText_iff.1 h
  rw [List.getElem?_append_right (by omega), show before.length + 1 + body.length - before.length
    = body.length + 1 by omega, List.getElem?_cons_succ,
    List.getElem?_append_right (Nat.le_refl _), Nat.sub_self, List.getElem?_cons_zero]

end BraceMap

/-! ## Closed texts -/

open BraceMap

/-- Every group that opens in the text closes in it. -/
def Closed (s : Text) : Prop := ∀ o : Nat, s[o]? = some '\x7b' → ∃ c, (ofText s).close o = some c

instance (s : Text) : Decidable (Closed s) :=
  decidable_of_iff (∀ o, o < s.length → s[o]? = some '\x7b' → ((ofText s).close o).isSome = true)
    ⟨fun h o ho => Option.isSome_iff_exists.1 (h o (List.getElem?_eq_some_iff.1 ho).1 ho),
      fun h o _ ho => Option.isSome_iff_exists.2 (h o ho)⟩

/-- The end of a closed text is closed. -/
theorem Closed.of_append {s t : Text} (h : Closed (s ++ t)) : Closed t := by
  intro o ho
  obtain ⟨c, hc⟩ := h (s.length + o) (by
    rw [List.getElem?_append_right (Nat.le_add_right _ _), Nat.add_sub_cancel_left, ho])
  rw [close_append_right] at hc
  obtain ⟨c', hc', -⟩ := Option.map_eq_some_iff.1 hc
  exact ⟨c', hc'⟩

theorem Closed.after_group {body after : Text} (h : Closed ('\x7b' :: (body ++ '\x7d' :: after))) :
    Closed after := by
  have hshape : '\x7b' :: (body ++ '\x7d' :: after) = '\x7b' :: (body ++ ['\x7d']) ++ after := by
    simp
  rw [hshape] at h
  exact h.of_append

/-- One closed text after another is closed. -/
theorem Closed.append {s t : Text} (hs : Closed s) (ht : Closed t) : Closed (s ++ t) := by
  intro o ho
  by_cases hlt : o < s.length
  · rw [List.getElem?_append_left hlt] at ho
    obtain ⟨c, hc⟩ := hs o ho
    exact ⟨c, close_append_left hc t⟩
  · have hle : s.length ≤ o := Nat.le_of_not_lt hlt
    rw [List.getElem?_append_right hle] at ho
    obtain ⟨c, hc⟩ := ht _ ho
    refine ⟨s.length + c, ?_⟩
    have h := close_append_right s t (o - s.length)
    rw [Nat.add_sub_cancel' hle, hc] at h
    exact h

/-- A text that leaves no group open is closed, whatever it closes itself. -/
theorem closed_of_levelAfter {depth : Nat} {s : Text} (h : levelAfter depth s = some 0) :
    Closed s := by
  intro o ho
  obtain ⟨hlt, hget⟩ := List.getElem?_eq_some_iff.1 ho
  have hsplit : s = s.take o ++ '\x7b' :: s.drop (o + 1) := by
    rw [← hget, List.getElem_cons_drop, List.take_append_drop]
  rw [hsplit, levelAfter_append, Option.bind_eq_some_iff] at h
  obtain ⟨d, -, hd⟩ := h
  rw [levelAfter_open] at hd
  obtain ⟨n, hn⟩ := @closingOffset_isSome d 0 0 _ hd (Nat.zero_le d)
  exact ⟨o + 1 + n, by rw [close_ofText, if_pos ho, hn]; rfl⟩

theorem Balanced.closed {s : Text} (h : Balanced s) : Closed s := closed_of_levelAfter h

/-- Every group that opens inside another one closes inside it. -/
theorem BraceMap.close_inside {s : Text} {o c o' : Nat} (h : (ofText s).close o = some c)
    (ho : o < o') (hc : o' < c) (hopen : s[o']? = some '\x7b') :
    ∃ c', (ofText s).close o' = some c' ∧ c' < c := by
  obtain ⟨before, body, after, rfl, hbody, rfl, rfl⟩ := close_ofText_iff.1 h
  obtain ⟨i, rfl⟩ : ∃ i, o' = before.length + 1 + i := ⟨o' - (before.length + 1), by omega⟩
  have hshape : before ++ '\x7b' :: (body ++ '\x7d' :: after) =
      (before ++ ['\x7b']) ++ (body ++ '\x7d' :: after) := by simp
  have hlen : before.length + 1 + i = (before ++ ['\x7b']).length + i := by simp
  rw [hshape, hlen, List.getElem?_append_right (Nat.le_add_right _ _), Nat.add_sub_cancel_left,
    List.getElem?_append_left (by omega)] at hopen
  obtain ⟨c', hc'⟩ := hbody.closed i hopen
  refine ⟨before.length + 1 + c', ?_, by have := close_lt_length hc'; omega⟩
  rw [hshape, hlen, close_append_right, close_append_left hc']
  simp

/-- The brace that a group begins with and the end of a closed text: the group
    lies on one side. -/
theorem BraceMap.close_closed_append {s t : Text} (hs : Closed s) {o c : Nat} (ho : o < s.length)
    (h : (ofText (s ++ t)).close o = some c) : (ofText s).close o = some c := by
  have hopen := getElem?_of_close h
  rw [List.getElem?_append_left ho] at hopen
  obtain ⟨c', hc'⟩ := hs o hopen
  rw [close_append_left hc' t] at h
  rw [hc', h]

end StoryTemplate
