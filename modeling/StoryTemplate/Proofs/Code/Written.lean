import Mathlib.Data.List.Basic
import StoryTemplate.Declaration
import StoryTemplate.Proofs.Text.Cuts

/-! # Lines of code as they are written

    An injection is written `> name value`, a map `< m id k:v|k:v|` and a list
    `< l id v|v|`, with a bar behind every token; a body without tokens is a single
    bar.  What a line declares is read back from it, if its fields keep clear of the
    characters that the reader cuts at and of white space where the reader trims.

    Main facts: `CodeLine.read_text` (a line is read back) and
    `Declaration.declares?_line` (every declaration has a line). -/

namespace StoryTemplate

/-! ## Lines -/

/-- A line of code, without the line break behind it. -/
inductive CodeLine
  | blank (space : Text)
  | injection (name value : Text)
  | map (id : Text) (entries : List (Text × Text))
  | list (id : Text) (values : List Text)
  deriving DecidableEq

namespace CodeLine

/-- A key and a value with a colon between them. -/
def entryText (entry : Text × Text) : Text := entry.1 ++ ':' :: entry.2

/-- The tokens with a bar behind each of them. -/
def body : List Text → Text
  | [] => ['|']
  | token :: tokens => (token :: tokens).flatMap (· ++ ['|'])

/-- A meta object with the letter of its type. -/
def metaText (type : Char) (id : Text) (tokens : List Text) : Text :=
  ['<', ' ', type, ' '] ++ (id ++ ' ' :: body tokens)

/-- The line as it is written. -/
def text : CodeLine → Text
  | .blank space => space
  | .injection name value => ['>', ' '] ++ (name ++ ' ' :: value)
  | .map id entries => metaText 'm' id (entries.map entryText)
  | .list id values => metaText 'l' id values

/-- What the line declares; of two entries with one key the later one counts. -/
def declares? : CodeLine → Option Declaration
  | .blank _ => none
  | .injection name value => some (.injection name value)
  | .map id entries => some (.metaObject (.map ⟨id, .ofList entries⟩))
  | .list id values => some (.metaObject (.list ⟨id, values⟩))

/-! ## Well-formed lines -/

/-- The text holds no character of a line break. -/
def IsOneLine (s : Text) : Prop := '\r' ∉ s ∧ '\n' ∉ s

/-- The text may stand as the name of an injection or as an id. -/
def IsName (s : Text) : Prop :=
  IsOneLine s ∧ s ≠ [] ∧ ' ' ∉ s ∧ startsWith isBlank s = false

/-- The text may stand as a key or a value of a map. -/
def IsEntryPart (s : Text) : Prop := IsOneLine s ∧ s ≠ [] ∧ ':' ∉ s ∧ '|' ∉ s

/-- The fields of the line are such that it can be read back. -/
def WellFormed : CodeLine → Prop
  -- A carriage return at the end would be part of the line break.
  | .blank space => isBlankText space = true ∧ '\n' ∉ space ∧ space.getLast? ≠ some '\r'
  | .injection name value =>
    IsName name ∧ IsOneLine value ∧ value ≠ [] ∧ value.getLast?.any isBlank = false
  | .map id entries => IsName id ∧ ∀ entry ∈ entries, IsEntryPart entry.1 ∧ IsEntryPart entry.2
  | .list id values =>
    IsName id ∧ (∀ value ∈ values, IsOneLine value ∧ '|' ∉ value) ∧ values.getLast? ≠ some []

/-! ## Readable lines

    A field is read back wherever a reader of one line cuts and trims, whether or not it
    holds line breaks. -/

/-- The text ends at the first space behind it, and is not reached by trimming. -/
def IsLabel (s : Text) : Prop := s ≠ [] ∧ ' ' ∉ s ∧ startsWith isBlank s = false

/-- The text ends at the first colon or bar behind it. -/
def IsField (s : Text) : Prop := s ≠ [] ∧ ':' ∉ s ∧ '|' ∉ s

/-- The fields of the line end where the reader cuts. -/
def Readable : CodeLine → Prop
  | .blank space => isBlankText space = true
  | .injection name value => IsLabel name ∧ value ≠ [] ∧ value.getLast?.any isBlank = false
  | .map id entries => IsLabel id ∧ ∀ entry ∈ entries, IsField entry.1 ∧ IsField entry.2
  | .list id values =>
    IsLabel id ∧ (∀ value ∈ values, '|' ∉ value) ∧ values.getLast? ≠ some []

theorem WellFormed.readable {line : CodeLine} (h : line.WellFormed) : line.Readable := by
  cases line with
  | blank space => exact h.1
  | injection name value => exact ⟨h.1.2, h.2.2⟩
  | map id entries =>
      refine ⟨h.1.2, ?_⟩
      intro entry hentry
      obtain ⟨hkey, hvalue⟩ := h.2 entry hentry
      exact ⟨hkey.2, hvalue.2⟩
  | list id values =>
      refine ⟨h.1.2, ?_, h.2.2⟩
      intro value hvalue
      exact (h.2.1 value hvalue).2

instance : DecidablePred IsOneLine := fun _ => inferInstanceAs (Decidable (_ ∧ _))

instance : DecidablePred IsName := fun _ => inferInstanceAs (Decidable (_ ∧ _))

instance : DecidablePred IsEntryPart := fun _ => inferInstanceAs (Decidable (_ ∧ _))

instance : DecidablePred IsLabel := fun _ => inferInstanceAs (Decidable (_ ∧ _))

instance : DecidablePred IsField := fun _ => inferInstanceAs (Decidable (_ ∧ _))

instance : DecidablePred WellFormed
  | .blank _ => inferInstanceAs (Decidable (_ ∧ _))
  | .injection _ _ => inferInstanceAs (Decidable (_ ∧ _))
  | .map _ _ => inferInstanceAs (Decidable (_ ∧ _))
  | .list _ _ => inferInstanceAs (Decidable (_ ∧ _))

/-! ## Bodies -/

section Bodies

variable {tokens : List Text}

theorem body_ne_nil (tokens : List Text) : body tokens ≠ [] := by
  cases tokens with
  | nil => exact List.cons_ne_nil _ _
  | cons token tokens => simp [body]

/-- A body ends with a bar. -/
theorem getLast?_body (tokens : List Text) : (body tokens).getLast? = some '|' := by
  cases tokens with
  | nil => rfl
  | cons token tokens =>
      rw [body, ← List.dropLast_concat_getLast (List.cons_ne_nil token tokens),
        List.flatMap_append, List.flatMap_singleton, ← List.append_assoc, List.getLast?_concat]

/-- What holds of the bar and of all characters of the tokens holds of all characters
    of the body. -/
theorem forall_mem_body {p : Char → Prop} (hbar : p '|') (h : ∀ token ∈ tokens, ∀ c ∈ token, p c) :
    ∀ c ∈ body tokens, p c := by
  cases tokens with
  | nil => exact List.forall_mem_singleton.2 hbar
  | cons token tokens =>
      intro c hc
      obtain ⟨t, ht, hc⟩ := List.mem_flatMap.1 hc
      rcases List.mem_append.1 hc with hc | hc
      · exact h t ht c hc
      · exact List.eq_of_mem_singleton hc ▸ hbar

/-- Where the last text is not empty, no empty ones are dropped at the end. -/
theorem dropWhile_reverse_of_getLast? (hlast : tokens.getLast? ≠ some []) :
    (tokens.reverse.dropWhile (· = [])).reverse = tokens := by
  rcases List.eq_nil_or_concat tokens with rfl | ⟨tokens, last, rfl⟩
  · rfl
  · rw [List.concat_eq_append] at hlast ⊢
    rw [List.getLast?_concat] at hlast
    rw [List.reverse_append, List.reverse_singleton, List.singleton_append,
      List.dropWhile_cons_of_neg (by simpa using hlast), List.reverse_cons,
      List.reverse_reverse]

/-- The tokens of a body are read back, unless the last one is empty. -/
theorem tokens_body (hbar : ∀ token ∈ tokens, '|' ∉ token) (hlast : tokens.getLast? ≠ some []) :
    Declaration.tokens (body tokens) = tokens := by
  rw [Declaration.tokens]
  cases tokens with
  | nil => rfl
  | cons token tokens =>
      rw [body, splitAll_flatMap hbar, List.reverse_append, List.reverse_singleton,
        List.singleton_append, List.dropWhile_cons_of_pos (by simp),
        dropWhile_reverse_of_getLast? hlast]

end Bodies

/-! ## Reading a line back -/

section Reading

variable {name id value : Text} {entries : List (Text × Text)} {tokens : List Text}

theorem startsWith_append {p : Char → Bool} {s : Text} (hne : s ≠ []) (rest : Text) :
    startsWith p (s ++ rest) = startsWith p s := by
  cases s with
  | nil => exact absurd rfl hne
  | cons c r => rfl

theorem trim_space {s : Text} (hstart : startsWith isBlank s = false)
    (hend : s.getLast?.any isBlank = false) : trim (' ' :: s) = s :=
  @trim_padded [' '] s (List.forall_mem_singleton.2 (by decide)) hstart hend

/-- A name and what follows it keep their place when the white space around them is
    trimmed. -/
theorem trim_name (hname : IsLabel name) (hvalue : value ≠ [])
    (hend : value.getLast?.any isBlank = false) :
    trim (' ' :: (name ++ ' ' :: value)) = name ++ ' ' :: value := by
  obtain ⟨hne, -, hstart⟩ := hname
  have hlast : (name ++ ' ' :: value).getLast? = value.getLast? := by
    rw [List.getLast?_append_of_ne_nil _ (List.cons_ne_nil _ _),
      List.getLast?_cons_of_ne_nil hvalue]
  exact trim_space ((startsWith_append hne _).trans hstart) (hlast ▸ hend)

theorem readInjection_name (hname : IsLabel name) :
    Declaration.readInjection (name ++ ' ' :: value) = .ok (.injection name value) := by
  rw [Declaration.readInjection, splitFirst_append hname.2.1]

theorem readId_name (hid : IsLabel id) (hvalue : value ≠ []) :
    Declaration.readId (id ++ ' ' :: value) = .ok (id, value) := by
  rw [Declaration.readId, splitFirst_append hid.2.1]
  exact if_neg (not_or.2 ⟨hid.1, hvalue⟩)

theorem readEntry_entryText {entry : Text × Text} (hkey : IsField entry.1)
    (hvalue : IsField entry.2) : Declaration.readEntry (entryText entry) = .ok entry := by
  rw [Declaration.readEntry, entryText, splitAll_append hkey.2.1,
    splitAll_of_not_mem hvalue.2.1]
  exact if_neg (not_or.2 ⟨hkey.1, hvalue.1⟩)

theorem not_mem_entryText {entry : Text × Text} (hkey : IsField entry.1)
    (hvalue : IsField entry.2) : '|' ∉ entryText entry := by
  intro hbar
  rcases List.mem_append.1 hbar with hbar | hbar
  · exact hkey.2.2 hbar
  · exact hvalue.2.2 ((List.mem_cons.1 hbar).resolve_left (by decide))

theorem mapM_readEntry (h : ∀ entry ∈ entries, IsField entry.1 ∧ IsField entry.2) :
    (entries.map entryText).mapM Declaration.readEntry = .ok entries := by
  induction entries with
  | nil => rfl
  | cons entry entries ih =>
      obtain ⟨⟨hkey, hvalue⟩, hentries⟩ := List.forall_mem_cons.1 h
      rw [List.map_cons, List.mapM_cons, readEntry_entryText hkey hvalue, ih hentries]
      rfl

theorem isBlankText_cons {c : Char} (hc : isBlank c = false) (s : Text) :
    isBlankText (c :: s) = false := by
  rw [isBlankText, List.all_cons, hc, Bool.false_and]

/-- A meta object is read from the letter of its type on, without the white space behind
    its body. -/
theorem read_meta {type : Char} {data space : Text} (htype : isBlank type = false)
    (hdata : data ≠ []) (hend : data.getLast?.any isBlank = false)
    (hspace : ∀ c ∈ space, isBlank c = true) :
    Declaration.read (['<', ' ', type, ' '] ++ (id ++ ' ' :: data) ++ space) =
      (Declaration.readMetaObject (type :: ' ' :: (id ++ ' ' :: data))).map
        fun object => some (.metaObject object) := by
  have hlast : (type :: ' ' :: (id ++ ' ' :: data)).getLast? = data.getLast? := by
    rw [← List.cons_append, ← List.cons_append,
      List.getLast?_append_of_ne_nil _ (List.cons_ne_nil _ _),
      List.getLast?_cons_of_ne_nil hdata]
  have htrim : trim ([' '] ++ type :: ' ' :: (id ++ ' ' :: data) ++ space) =
      type :: ' ' :: (id ++ ' ' :: data) :=
    trim_between (List.forall_mem_singleton.2 (by decide)) hspace (List.cons_ne_nil _ _) htype
      (hlast ▸ hend)
  have hblank : isBlankText (['<', ' ', type, ' '] ++ (id ++ ' ' :: data) ++ space) = false :=
    isBlankText_cons (by decide) _
  have hread : Declaration.read (['<', ' ', type, ' '] ++ (id ++ ' ' :: data) ++ space) =
      (Declaration.readMetaObject (trim ([' '] ++ type :: ' ' :: (id ++ ' ' :: data) ++ space))).map
        fun object => some (.metaObject object) :=
    if_neg (by rw [hblank]; decide)
  rw [hread, htrim]

theorem read_metaText {type : Char} (htype : isBlank type = false) :
    Declaration.read (metaText type id tokens) =
      (Declaration.readMetaObject (type :: ' ' :: (id ++ ' ' :: body tokens))).map
        fun object => some (.metaObject object) := by
  have hread := @read_meta id _ _ [] htype (body_ne_nil tokens) (getLast?_body tokens ▸ rfl)
    (List.forall_mem_nil _)
  rwa [List.append_nil] at hread

theorem trim_id (hid : IsLabel id) (tokens : List Text) :
    trim (' ' :: (id ++ ' ' :: body tokens)) = id ++ ' ' :: body tokens :=
  trim_name hid (body_ne_nil _) (getLast?_body tokens ▸ rfl)

theorem read_map (hid : IsLabel id)
    (h : ∀ entry ∈ entries, IsField entry.1 ∧ IsField entry.2) :
    Declaration.read (text (.map id entries)) = .ok (declares? (.map id entries)) := by
  have htokens : Declaration.tokens (body (entries.map entryText)) = entries.map entryText := by
    refine tokens_body (List.forall_mem_map.2 fun entry hentry => ?_) fun hlast => ?_
    · exact not_mem_entryText (h entry hentry).1 (h entry hentry).2
    · obtain ⟨entry, -, hentry⟩ := List.mem_map.1 (List.mem_of_getLast? hlast)
      exact List.append_ne_nil_of_right_ne_nil _ (List.cons_ne_nil _ _) hentry
  rw [text, read_metaText (by decide), Declaration.readMetaObject, trim_id hid,
    readId_name hid (body_ne_nil _)]
  show (((Declaration.tokens _).mapM Declaration.readEntry).bind _).map _ = _
  rw [htokens, mapM_readEntry h]
  rfl

theorem read_list (hid : IsLabel id) (hbar : ∀ token ∈ tokens, '|' ∉ token)
    (hlast : tokens.getLast? ≠ some []) :
    Declaration.read (text (.list id tokens)) = .ok (declares? (.list id tokens)) := by
  rw [text, read_metaText (by decide), Declaration.readMetaObject, trim_id hid,
    readId_name hid (body_ne_nil _)]
  show Except.ok (some (Declaration.metaObject (.list ⟨id, Declaration.tokens (body tokens)⟩))) = _
  rw [tokens_body hbar hlast]
  rfl

/-- A readable line is read back. -/
theorem read_text {line : CodeLine} (h : line.Readable) :
    Declaration.read line.text = .ok line.declares? := by
  cases line with
  | blank space => exact if_pos h
  | injection name value =>
      obtain ⟨hname, hvalue, hend⟩ := h
      have hblank : isBlankText (text (.injection name value)) = false :=
        isBlankText_cons (by decide) _
      have hread : Declaration.read (text (.injection name value)) =
          (Declaration.readInjection (trim (' ' :: (name ++ ' ' :: value)))).map some :=
        if_neg (by rw [hblank]; decide)
      rw [hread, trim_name hname hvalue hend, readInjection_name hname]
      rfl
  | map id entries => exact read_map h.1 h.2
  | list id values => exact read_list h.1 h.2.1 h.2.2

end Reading

/-! ## Lines keep clear of line breaks -/

/-- A meta object keeps to its line if its id and its tokens do. -/
theorem isOneLine_metaText {type : Char} {id : Text} {tokens : List Text}
    (htype : IsOneLine [type]) (hid : IsOneLine id) (htokens : ∀ token ∈ tokens, IsOneLine token) :
    IsOneLine (metaText type id tokens) := by
  have hbody : IsOneLine (body tokens) :=
    ⟨fun h => forall_mem_body (by decide)
        (fun token ht c hc => ne_of_mem_of_not_mem hc (htokens token ht).1) _ h rfl,
      fun h => forall_mem_body (by decide)
        (fun token ht c hc => ne_of_mem_of_not_mem hc (htokens token ht).2) _ h rfl⟩
  simp only [IsOneLine, metaText, List.mem_append, List.mem_cons, List.not_mem_nil, or_false] at *
  simp [htype, hid, hbody]

/-- A line that is not blank holds no character of a line break. -/
theorem isOneLine_text {line : CodeLine} (h : line.WellFormed) (hblank : line.declares? ≠ none) :
    IsOneLine line.text := by
  cases line with
  | blank space => exact absurd rfl hblank
  | injection name value =>
      obtain ⟨⟨hname, -⟩, hvalue, -⟩ := h
      simp only [IsOneLine, text, List.mem_append, List.mem_cons, List.not_mem_nil] at *
      simp [hname, hvalue]
  | map id entries =>
      refine isOneLine_metaText (by decide) h.1.1 (List.forall_mem_map.2 fun entry hentry => ?_)
      obtain ⟨⟨hkey, -⟩, hvalue, -⟩ := h.2 entry hentry
      simp only [IsOneLine, entryText, List.mem_append, List.mem_cons] at *
      simp [hkey, hvalue]
  | list id values =>
      exact isOneLine_metaText (by decide) h.1.1 fun value hvalue => (h.2.1 value hvalue).1

/-- A line does not reach into the next one, and its end is not taken for a part of the
    line break. -/
theorem text_ends {line : CodeLine} (h : line.WellFormed) :
    '\n' ∉ line.text ∧ line.text.getLast? ≠ some '\r' := by
  by_cases hblank : line.declares? = none
  · cases line with
    | blank space => exact h.2
    | injection name value => exact nomatch hblank
    | map id entries => exact nomatch hblank
    | list id values => exact nomatch hblank
  · have hline := isOneLine_text h hblank
    exact ⟨hline.2, fun hlast => hline.1 (List.mem_of_getLast? hlast)⟩

end CodeLine

/-! ## Every declaration has a line -/

section Dictionaries

variable {α : Type}

/-- A name behind all names of an ascending list of entries is bound at its end. -/
theorem Dict.insertEntry_of_forall_lt {name : Text} {value : α} {entries : List (Text × α)}
    (h : ∀ n ∈ entries.map Prod.fst, n < name) :
    Dict.insertEntry name value entries = entries ++ [(name, value)] := by
  induction entries with
  | nil => rfl
  | cons entry entries ih =>
      obtain ⟨hlt, hentries⟩ := List.forall_mem_cons.1 h
      rw [Dict.insertEntry, if_neg (List.lt_asymm hlt), if_neg fun heq => List.lt_irrefl _ (heq ▸ hlt),
        ih hentries, List.cons_append]

/-- Entries that continue a dictionary in ascending order are bound behind its own. -/
theorem Dict.entries_insertAll {d : Dict α} {pairs : List (Text × α)}
    (h : ((d.entries ++ pairs).map Prod.fst).Pairwise (· < ·)) :
    (d.insertAll pairs).entries = d.entries ++ pairs := by
  induction pairs generalizing d with
  | nil => exact (List.append_nil _).symm
  | cons pair pairs ih =>
      have hbehind : (d.insert pair.1 pair.2).entries = d.entries ++ [pair] := by
        rw [List.map_append, List.pairwise_append] at h
        exact Dict.insertEntry_of_forall_lt fun n hn => h.2.2 n hn pair.1 (.head _)
      have happend : d.entries ++ pair :: pairs = (d.insert pair.1 pair.2).entries ++ pairs := by
        rw [hbehind, List.append_assoc, List.singleton_append]
      rw [happend] at h ⊢
      exact ih h

/-- What is bound by several writes was bound before or is one of them. -/
theorem Dict.mem_entries_insertAll {d : Dict α} {pairs : List (Text × α)} {entry : Text × α}
    (h : entry ∈ (d.insertAll pairs).entries) : entry ∈ d.entries ∨ entry ∈ pairs := by
  induction pairs generalizing d with
  | nil => exact .inl h
  | cons pair pairs ih =>
      rcases ih h with hd | hpairs
      · rcases (Dict.mem_insertEntry_iff d.ascending).1 hd with rfl | ⟨-, hd⟩
        · exact .inr List.mem_cons_self
        · exact .inl hd
      · exact .inr (List.mem_cons_of_mem _ hpairs)

/-- A dictionary is the dictionary of its entries. -/
theorem Dict.ofList_entries (d : Dict α) : Dict.ofList d.entries = d := by
  have hentries : (Dict.ofList d.entries).entries = d.entries :=
    @Dict.entries_insertAll _ ∅ _ d.ascending
  cases d with
  | mk entries ascending =>
      cases hd : Dict.ofList entries with
      | mk entries' ascending' =>
          simp only [hd] at hentries
          subst hentries
          rfl

end Dictionaries

/-- The line of a declaration; the entries of a map are in the order of their keys. -/
def Declaration.line : Declaration → CodeLine
  | .injection name value => .injection name value
  | .metaObject (.map object) => .map object.id object.data.entries
  | .metaObject (.list object) => .list object.id object.data

/-- The line of a declaration declares it. -/
theorem Declaration.declares?_line (declaration : Declaration) :
    declaration.line.declares? = some declaration := by
  cases declaration with
  | injection name value => rfl
  | metaObject object =>
      cases object with
      | map object => rw [Declaration.line, CodeLine.declares?, Dict.ofList_entries]
      | list object => rfl

end StoryTemplate
