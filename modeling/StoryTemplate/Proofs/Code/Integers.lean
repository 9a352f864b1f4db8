import StoryTemplate.Proofs.Code.Written
import StoryTemplate.Proofs.Session
import StoryTemplate.Proofs.Text.Numerals

/-! # Integers declared in a line of code

    A row of numerals has bars between them, and maybe spaces around each.  The reader of
    the line trims the spaces behind the last numeral and keeps all others; the reader of
    an integer trims what is left.  So it does not matter where spaces are: a numeral is
    read as its value, in a list and in a map.

    The route:

    * `CodeLine.read_barredList` and `CodeLine.read_barredMap` say what a line declares
      whose last token has white space behind it;
    * `Numeral.bare` is the numeral that is kept of the last token.

    Main fact: `Declaration.read_integers`. -/

namespace StoryTemplate

/-! ## Lines with bars between their tokens -/

namespace CodeLine

/-- A meta object with bars between its tokens, and none behind the last. -/
def barredText (type : Char) (id : Text) (tokens : List Text) : Text :=
  ['<', ' ', type, ' '] ++ (id ++ ' ' :: joinWith ['|'] tokens)

section Barred

variable {id last space : Text} {tokens : List Text}

theorem tokens_barred (hbar : ∀ token ∈ tokens ++ [last], '|' ∉ token) (hne : last ≠ []) :
    Declaration.tokens (joinWith ['|'] (tokens ++ [last])) = tokens ++ [last] := by
  have hlast : (tokens ++ [last]).getLast? ≠ some [] := by
    rw [List.getLast?_concat]
    exact fun h => hne (Option.some.inj h)
  rw [Declaration.tokens, splitAll_joinWith (by simp) hbar, dropWhile_reverse_of_getLast? hlast]

/-- The end of a row of tokens is the end of its last one. -/
theorem getLast?_barred (tokens : List Text) (hne : last ≠ []) :
    (joinWith ['|'] (tokens ++ [last])).getLast? = last.getLast? := by
  rw [← List.nil_append last, joinWith_append_last, List.getLast?_append_of_ne_nil _ hne]
  rfl

theorem barred_ne_nil (tokens : List Text) (hne : last ≠ []) :
    joinWith ['|'] (tokens ++ [last]) ≠ [] := by
  rw [← List.nil_append last, joinWith_append_last]
  exact List.append_ne_nil_of_right_ne_nil _ hne

/-- A row of tokens is read without the white space behind the last one. -/
theorem read_barred {type : Char} (htype : isBlank type = false) (hne : last ≠ [])
    (hend : last.getLast?.any isBlank = false) (hspace : ∀ c ∈ space, isBlank c = true) :
    Declaration.read (barredText type id (tokens ++ [last ++ space])) =
      (Declaration.readMetaObject
        (type :: ' ' :: (id ++ ' ' :: joinWith ['|'] (tokens ++ [last])))).map
          fun object => some (.metaObject object) := by
  rw [← getLast?_barred tokens hne] at hend
  rw [← read_meta htype (barred_ne_nil tokens hne) hend hspace, barredText, joinWith_append_last]
  simp only [List.append_assoc, List.cons_append]

theorem readId_barred (hid : IsLabel id) (hne : last ≠ [])
    (hend : last.getLast?.any isBlank = false) :
    Declaration.readId (trim (' ' :: (id ++ ' ' :: joinWith ['|'] (tokens ++ [last])))) =
      .ok (id, joinWith ['|'] (tokens ++ [last])) := by
  have hdata := barred_ne_nil tokens hne
  rw [← getLast?_barred tokens hne] at hend
  rw [trim_name hid hdata hend, readId_name hid hdata]

/-- A list keeps its values but for the white space behind the last one. -/
theorem read_barredList (hid : IsLabel id) (hbar : ∀ token ∈ tokens ++ [last], '|' ∉ token)
    (hne : last ≠ []) (hend : last.getLast?.any isBlank = false)
    (hspace : ∀ c ∈ space, isBlank c = true) :
    Declaration.read (barredText 'l' id (tokens ++ [last ++ space])) =
      .ok (some (.metaObject (.list ⟨id, tokens ++ [last]⟩))) := by
  rw [read_barred (by decide) hne hend hspace, Declaration.readMetaObject,
    readId_barred hid hne hend]
  show Except.ok (some (Declaration.metaObject (.list ⟨id, Declaration.tokens _⟩))) = _
  rw [tokens_barred hbar hne]

/-- A map keeps its values but for the white space behind the last one. -/
theorem read_barredMap {entries : List (Text × Text)} {key value : Text} (hid : IsLabel id)
    (h : ∀ entry ∈ entries ++ [(key, value)], IsField entry.1 ∧ IsField entry.2)
    (hend : value.getLast?.any isBlank = false) (hspace : ∀ c ∈ space, isBlank c = true) :
    Declaration.read (barredText 'm' id ((entries ++ [(key, value ++ space)]).map entryText)) =
      .ok (some (.metaObject (.map ⟨id, .ofList (entries ++ [(key, value)])⟩))) := by
  have hlast := (List.forall_mem_append.1 h).2 _ List.mem_cons_self
  have hne : entryText (key, value) ≠ [] :=
    List.append_ne_nil_of_right_ne_nil _ (List.cons_ne_nil _ _)
  have hentryEnd : (entryText (key, value)).getLast? = value.getLast? := by
    rw [entryText, List.getLast?_append_of_ne_nil _ (List.cons_ne_nil _ _),
      List.getLast?_cons_of_ne_nil hlast.2.1]
  have hpadded : entryText (key, value ++ space) = entryText (key, value) ++ space := by
    rw [entryText, entryText, List.append_assoc, List.cons_append]
  have hbar : ∀ token ∈ entries.map entryText ++ [entryText (key, value)], '|' ∉ token := by
    rw [← List.map_singleton (f := entryText), ← List.map_append]
    refine List.forall_mem_map.2 fun entry hentry => ?_
    exact not_mem_entryText (h entry hentry).1 (h entry hentry).2
  rw [← hentryEnd] at hend
  rw [List.map_append, List.map_singleton, hpadded, read_barred (by decide) hne hend hspace,
    Declaration.readMetaObject, readId_barred hid hne hend]
  show (((Declaration.tokens _).mapM Declaration.readEntry).bind _).map _ = _
  rw [tokens_barred hbar hne, ← List.map_singleton (f := entryText), ← List.map_append,
    mapM_readEntry h]
  rfl

end Barred
end CodeLine

/-! ## Rows of numerals -/

theorem Numeral.text_eq_bare (numeral : Numeral) :
    numeral.text = numeral.bare.text ++ List.replicate numeral.after ' ' := by
  rw [bare_text]
  rfl

theorem Numeral.isField_text (numeral : Numeral) : CodeLine.IsField numeral.text :=
  ⟨numeral.text_ne_nil,
    numeral.not_mem_text (by decide) (by decide) (by decide) (by decide),
    numeral.not_mem_text (by decide) (by decide) (by decide) (by decide)⟩

namespace Declaration

open CodeLine (IsLabel IsField barredText entryText)

variable {id : Text}

/-- A key and its integer, as they are written. -/
def integerEntry (entry : Text × Numeral) : Text × Text := (entry.1, entry.2.text)

theorem map_integerEntry (entries : List (Text × Numeral)) (key : Text) (numeral : Numeral) :
    (entries ++ [(key, numeral)]).map integerEntry =
      entries.map integerEntry ++ [(key, numeral.text)] := List.map_append

/-- A list holds all its numerals, the last one without the spaces behind it. -/
theorem read_integerList (hid : IsLabel id) (numerals : List Numeral) (last : Numeral) :
    read (barredText 'l' id ((numerals ++ [last]).map Numeral.text)) =
      .ok (some (.metaObject (.list ⟨id, (numerals ++ [last.bare]).map Numeral.text⟩))) := by
  rw [List.map_append, List.map_append, List.map_singleton, List.map_singleton,
    last.text_eq_bare]
  refine CodeLine.read_barredList hid ?_ last.bare.text_ne_nil last.getLast?_bare_text
    (isBlank_of_mem_spaces _)
  rw [← List.map_singleton (f := Numeral.text), ← List.map_append]
  exact List.forall_mem_map.2 fun numeral _ => numeral.isField_text.2.2

/-- A map holds all its numerals, the last one without the spaces behind it. -/
theorem read_integerMap (hid : IsLabel id) {entries : List (Text × Numeral)} {key : Text}
    {last : Numeral} (hkeys : ∀ entry ∈ entries ++ [(key, last)], IsField entry.1) :
    read (barredText 'm' id (((entries ++ [(key, last)]).map integerEntry).map entryText)) =
      .ok (some (.metaObject
        (.map ⟨id, .ofList ((entries ++ [(key, last.bare)]).map integerEntry)⟩))) := by
  have hfields : ∀ entry ∈ entries.map integerEntry ++ [(key, last.bare.text)],
      IsField entry.1 ∧ IsField entry.2 := by
    obtain ⟨hentries, hkey⟩ := List.forall_mem_append.1 hkeys
    refine List.forall_mem_append.2 ⟨List.forall_mem_map.2 fun entry hentry => ?_,
      List.forall_mem_singleton.2 ?_⟩
    · exact ⟨hentries entry hentry, entry.2.isField_text⟩
    · exact ⟨hkey _ List.mem_cons_self, last.bare.isField_text⟩
  have hread := CodeLine.read_barredMap hid hfields last.getLast?_bare_text
    (isBlank_of_mem_spaces last.after)
  rw [← last.text_eq_bare] at hread
  rw [map_integerEntry, map_integerEntry]
  exact hread

/-- The integers of a list of numerals are their values. -/
theorem integer?_integerList (numerals : List Numeral) (i : Nat) :
    MetaList.integer? ⟨id, numerals.map Numeral.text⟩ i =
      (numerals.map Numeral.value)[i]?.bind inRange? := by
  show ((numerals.map Numeral.text)[i]?).bind integerOf = _
  rw [List.getElem?_map, List.getElem?_map]
  cases numerals[i]? with
  | none => rfl
  | some numeral => exact numeral.integerOf_text

/-- The integer of a key is the value of its numeral, if no other entry has the key. -/
theorem integer?_integerMap {entries : List (Text × Numeral)}
    (hkeys : (entries.map Prod.fst).Nodup) {entry : Text × Numeral} (hentry : entry ∈ entries) :
    MetaMap.integer? ⟨id, .ofList (entries.map integerEntry)⟩ entry.1 =
      inRange? entry.2.value := by
  have hnames : ((entries.map integerEntry).map Prod.fst).Nodup := by
    rw [List.map_map]
    exact hkeys
  have hget := Dict.get?_ofList_of_mem hnames (List.mem_map_of_mem hentry)
  show ((Dict.ofList (entries.map integerEntry)).get? entry.1).bind integerOf = _
  rw [show entry.1 = (integerEntry entry).1 from rfl, hget]
  exact entry.2.integerOf_text

/-- Integers declared in a line are read back exactly, up to the limits: in a list and in
    a map, with or without a sign, with zeros in front and spaces around.  What is no
    optional sign and digits is no integer. -/
theorem read_integers (hid : IsLabel id) :
    Function.Surjective Numeral.value ∧
    (∀ numerals : List Numeral, numerals ≠ [] → ∃ list : MetaList,
      read (barredText 'l' id (numerals.map Numeral.text)) =
          .ok (some (.metaObject (.list list))) ∧
        list.id = id ∧ list.data.length = numerals.length ∧
        ∀ i numeral, numerals[i]? = some numeral →
          list.integer? i = if -2 ^ 63 ≤ numeral.value ∧ numeral.value ≤ 2 ^ 63 - 1
            then some numeral.value else none) ∧
    (∀ entries : List (Text × Numeral), entries ≠ [] → (entries.map Prod.fst).Nodup →
      (∀ entry ∈ entries, IsField entry.1) → ∃ map : MetaMap,
      read (barredText 'm' id ((entries.map integerEntry).map entryText)) =
          .ok (some (.metaObject (.map map))) ∧
        map.id = id ∧
        ∀ entry ∈ entries,
          map.integer? entry.1 = if -2 ^ 63 ≤ entry.2.value ∧ entry.2.value ≤ 2 ^ 63 - 1
            then some entry.2.value else none) ∧
    ∀ s : Text, ¬ IsSignedDigits (trim s) →
      (∀ (list : MetaList) i, list.get? i = some s → list.integer? i = none) ∧
        ∀ (map : MetaMap) key, map.get? key = some s → map.integer? key = none := by
  refine ⟨Numeral.value_surjective, ?_, ?_, ?_⟩
  · intro numerals hne
    obtain ⟨numerals, last, rfl⟩ := (List.eq_nil_or_concat numerals).resolve_left hne
    rw [List.concat_eq_append]
    refine ⟨_, read_integerList hid numerals last, rfl, by simp, ?_⟩
    intro i numeral hi
    -- Dropping the spaces behind a numeral does not change its value.
    have hvalues : (numerals ++ [last.bare]).map Numeral.value =
        (numerals ++ [last]).map Numeral.value := by
      rw [List.map_append, List.map_append]
      rfl
    rw [integer?_integerList, hvalues, List.getElem?_map, hi]
    rfl
  · intro entries hne hkeys hfields
    obtain ⟨entries, ⟨key, last⟩, rfl⟩ := (List.eq_nil_or_concat entries).resolve_left hne
    rw [List.concat_eq_append] at *
    refine ⟨_, read_integerMap hid hfields, rfl, ?_⟩
    have hkeys' : ((entries ++ [(key, last.bare)]).map Prod.fst).Nodup := by
      rw [List.map_append] at hkeys ⊢
      exact hkeys
    intro entry hentry
    rcases List.mem_append.1 hentry with hentry | hentry
    · exact integer?_integerMap hkeys' (List.mem_append_left _ hentry)
    · obtain rfl := List.eq_of_mem_singleton hentry
      exact @integer?_integerMap id _ hkeys' (key, last.bare)
        (List.mem_append_right _ List.mem_cons_self)
  · intro s hs
    have hnone : integerOf s = none :=
      Option.eq_none_iff_forall_ne_some.2 fun n hn => hs (isSignedDigits_of_integerOf hn)
    constructor
    · intro list i hget
      rw [MetaList.integer?, hget]
      exact hnone
    · intro map key hget
      rw [MetaMap.integer?, hget]
      exact hnone

/-- Both ends of the range are read, and one past either end is not, in a list and in a
    map. -/
theorem read_integers_ends :
    let row := ("< l ö   9223372036854775807|+0000000000000000000000000" ++
      "9223372036854775808 |-9223372036854775808|-9223372036854775809| -00   ").toList
    let table := "< m ö  a b:-09223372036854775809|ä: +007 ".toList
    IsLabel ['ö'] ∧
      (∃ list : MetaList, read row = .ok (some (.metaObject (.list list))) ∧
        list.integer? 0 = some 9223372036854775807 ∧ list.integer? 1 = none ∧
        list.integer? 2 = some (-9223372036854775808) ∧ list.integer? 3 = none ∧
        list.integer? 4 = some 0) ∧
      ∃ map : MetaMap, read table = .ok (some (.metaObject (.map map))) ∧
        map.integer? " a b".toList = none ∧ map.integer? ['ä'] = some 7 := by
  intro row table
  have hid : IsLabel ['ö'] := by decide
  refine ⟨hid, ?_, ?_⟩
  · let numerals : List Numeral :=
      [⟨2, .none, 0, 9223372036854775807, 0⟩, ⟨0, .plus, 25, 9223372036854775808, 1⟩,
        ⟨0, .minus, 0, 9223372036854775808, 0⟩, ⟨0, .minus, 0, 9223372036854775809, 0⟩,
        ⟨1, .minus, 1, 0, 3⟩]
    have hrow : barredText 'l' ['ö'] (numerals.map Numeral.text) = row := by decide +kernel
    obtain ⟨list, hread, -, -, hinteger⟩ :=
      (read_integers hid).2.1 numerals (List.cons_ne_nil _ _)
    refine ⟨list, hrow ▸ hread, ?_, ?_, ?_, ?_, ?_⟩
    · exact hinteger 0 _ rfl
    · exact hinteger 1 _ rfl
    · exact hinteger 2 _ rfl
    · exact hinteger 3 _ rfl
    · exact hinteger 4 _ rfl
  · let entries : List (Text × Numeral) :=
      [(" a b".toList, ⟨0, .minus, 1, 9223372036854775809, 0⟩), (['ä'], ⟨1, .plus, 2, 7, 1⟩)]
    have htable : barredText 'm' ['ö'] ((entries.map integerEntry).map entryText) = table := by
      decide +kernel
    obtain ⟨map, hread, -, hinteger⟩ :=
      (read_integers hid).2.2.1 entries (List.cons_ne_nil _ _) (by decide) (by decide +kernel)
    refine ⟨map, htable ▸ hread, ?_, ?_⟩
    · exact hinteger (" a b".toList, _) List.mem_cons_self
    · exact hinteger (['ä'], _) (List.mem_cons_of_mem _ List.mem_cons_self)

end Declaration
end StoryTemplate
