import CodeTint.Proofs.SettingsForms

/-!
# Keys are judged before anything behind them

A key of the settings is looked up as soon as its string has been read. However the entries in front
of it and its own characters are written, a key that belongs to no field or to one that was given
before is what the document is refused for: neither a colon, nor a value, nor the end of the
document is asked for, so whatever stands behind the key makes no difference.
-/

namespace CodeTint.Config

open Json (Takes token mark)

/-- The beginnings of objects that give the fields of a list and then a key. -/
def keyForms (config : Config) (fields : List Field) (key : Text) : Language Char :=
  {['\x7b']} * Json.listed (fields.map config.entryForms ++ [token (Json.string key)])

/-- A choice is made once its field is among those adopted, or when it was made before. -/
theorem has_foldl_adopt (config : Config) (fields : List Field) (choices : Choices)
    (field : Field) :
    (fields.foldl (·.adopt config) choices).has field = true ↔
      choices.has field = true ∨ field ∈ fields := by
  induction fields generalizing choices with
  | nil => simp only [List.foldl_nil, List.not_mem_nil, or_false]
  | cons other fields ih =>
    rw [List.foldl_cons, ih, Choices.has_adopt, Bool.or_eq_true, decide_eq_true_eq, List.mem_cons,
      or_assoc, eq_comm (a := other)]

/-- A key that is none of the keys of the fields is unknown, whatever has been chosen. -/
theorem fieldNamed_of_unknown (choices : Choices) {key : Text}
    (h : ∀ field : Field, field.key.toList ≠ key) :
    fieldNamed choices key = .error (.unknownField key) := by
  have hnone : Field.ofKey? (String.ofList key) = none := by
    cases hfound : Field.ofKey? (String.ofList key) with
    | none => rfl
    | some field =>
      have hkey := Field.key_of_ofKey? hfound
      exact absurd (hkey ▸ String.toList_ofList) (h field)
  rw [fieldNamed, hnone]

/-- The key of a field whose choice has been made is a repeated one. -/
theorem fieldNamed_of_repeated {choices : Choices} {field : Field}
    (h : choices.has field = true) :
    fieldNamed choices field.key.toList = .error (.repeatedField field) := by
  simp only [fieldNamed, String.ofList_toList, Field.ofKey?_key, h, if_true]

/-- What is wrong with an entry is what is wrong with the object. -/
theorem readEntries_fault {choices : Choices} {first : Bool} {text behind : Text} {fault : Fault}
    (hkey : nextKey first text = .ok (.item behind))
    (hentry : readEntry choices behind = .error fault) :
    readEntries choices first text = .error fault := by
  rw [readEntries, hkey]
  dsimp only
  split
  · next other hother => exact hother.symm.trans hentry
  · next found left hleft => cases hleft.symm.trans hentry

section Key

variable {choices : Choices} {key : Text} {fault : Fault}

/-- A key that is refused is a quote behind a gap, and what stands behind the quote is refused for
the key, whatever stands behind the closing quote. -/
theorem exists_of_mem_token_key (hfault : fieldNamed choices key = .error fault) {form : Text}
    (h : form ∈ token (Json.string key)) :
    ∃ inner, (∀ rest, Json.skipSpace (form ++ rest) = '"' :: (inner ++ rest)) ∧
      ∀ rest, readEntry choices (inner ++ rest) = .error fault := by
  obtain ⟨inner, hskip, hread⟩ := exists_of_mem_token_string h
  refine ⟨inner, hskip, fun rest => ?_⟩
  simp only [readEntry, hread, hfault, bind, Except.bind]

/-- A refused key at the front of an object is what is wrong with it. -/
theorem readEntries_first_key (hfault : fieldNamed choices key = .error fault) {form : Text}
    (h : form ∈ token (Json.string key)) (rest : Text) :
    readEntries choices true (form ++ rest) = .error fault := by
  obtain ⟨inner, hskip, hread⟩ := exists_of_mem_token_key hfault h
  have hkey : nextKey true (form ++ rest) = .ok (.item (inner ++ rest)) := by
    rw [nextKey, hskip]
    rfl
  exact readEntries_fault hkey (hread rest)

/-- So is a refused key behind a comma. -/
theorem readEntries_next_key (hfault : fieldNamed choices key = .error fault) {form : Text}
    (h : form ∈ mark ',' * token (Json.string key)) (rest : Text) :
    readEntries choices false (form ++ rest) = .error fault := by
  obtain ⟨comma, hcomma, name, hname, rfl⟩ := Language.mem_mul.mp h
  obtain ⟨inner, hskip, hread⟩ := exists_of_mem_token_key hfault hname
  have hkey : nextKey false (comma ++ name ++ rest) = .ok (.item (inner ++ rest)) := by
    rw [nextKey, List.append_assoc, Json.skipSpace_mark rfl hcomma]
    simp only [hskip]
    rfl
  exact readEntries_fault hkey (hread rest)

end Key

/-- Behind an opening brace and the entries of different fields, a refused key is what is wrong with
the document. -/
theorem read_of_refused_key {config : Config} {fields : List Field} (hnodup : fields.Nodup)
    {key : Text} {fault : Fault}
    (hfault : fieldNamed (fields.foldl (·.adopt config) .none) key = .error fault) {front : Text}
    (h : front ∈ token (config.keyForms fields key)) (rest : Text) :
    read (front ++ rest) = .error fault := by
  obtain ⟨body, hbody, hskip⟩ := Json.exists_of_mem_token rfl h
  have hentries : readEntries .none true (body ++ rest) = .error fault := by
    cases fields with
    | nil =>
      rw [List.map_nil, List.nil_append, Json.listed, List.map_nil, List.prod_nil, mul_one]
        at hbody
      exact readEntries_first_key hfault hbody rest
    | cons field fields =>
      rw [List.map_cons, List.cons_append, Json.listed, List.map_append, List.prod_append,
        List.map_singleton, List.prod_singleton] at hbody
      obtain ⟨first, hfirst, behind, hbehind, rfl⟩ := Language.mem_mul.mp hbody
      obtain ⟨others, hothers, name, hname, rfl⟩ := Language.mem_mul.mp hbehind
      rw [List.append_assoc, List.append_assoc,
        readEntries_first (Choices.has_none field) hfirst,
        readEntries_others config (List.nodup_cons.mp hnodup).2
          (open_adopt config hnodup fun other _ => Choices.has_none other) hothers]
      exact readEntries_next_key hfault hname rest
  have hchoices : readChoices (front ++ rest) = .error fault := by
    rw [readChoices, hskip]
    simp only [Char.reduceEq, if_false, if_true, hentries]
  simp only [read, readDocument, hchoices, bind, Except.bind, Except.map]

/-- An object is refused for the first key that belongs to no field or to one given before, whatever
stands behind the key. In front of it different fields may be given in any order, with any values
and in any of their forms, and the key itself may be written with any escapes. -/
theorem read_judges_key (config : Config) {fields : List Field} (hnodup : fields.Nodup)
    {key front : Text} (h : front ∈ token (config.keyForms fields key)) (rest : Text) :
    ((∀ field : Field, field.key.toList ≠ key) →
        read (front ++ rest) = .error (.unknownField key) ∧
          (Fault.unknownField key).message? = some ("unknown field `".toList ++ key ++
            "`, expected one of `scheme`, `class_prefix`, `element`".toList)) ∧
      ∀ field ∈ fields, field.key.toList = key →
        read (front ++ rest) = .error (.repeatedField field) ∧
          (Fault.repeatedField field).message? =
            some ("duplicate field `".toList ++ key ++ "`".toList) := by
  constructor
  · intro hunknown
    refine ⟨read_of_refused_key hnodup (fieldNamed_of_unknown _ hunknown) h rest, ?_⟩
    have hfront : "unknown field `".toList = "unknown field ".toList ++ ['\x60'] := rfl
    have hbehind : "`, expected one of `scheme`, `class_prefix`, `element`".toList =
        ['\x60'] ++ (", expected one of ".toList ++
          Fault.accentedList (Field.all.map Field.key)) := rfl
    simp only [Fault.message?, Json.Found.accented, hfront, hbehind, List.append_assoc]
  · rintro field hfield rfl
    have hmade : (fields.foldl (·.adopt config) Choices.none).has field = true :=
      (has_foldl_adopt config fields .none field).mpr (Or.inr hfield)
    refine ⟨read_of_refused_key hnodup (fieldNamed_of_repeated hmade) h rest, ?_⟩
    cases field <;> rfl

/-- Behind the same entry, its key again with an escape and in front of a bracket that cannot stand
there, and a key that is the end of the text. -/
theorem read_judges_key_escaped :
    read "\x7b\"element\":\"b\",\"\\u0065lement\"]".toList = .error (.repeatedField .element) ∧
      read "\x7b\"element\":\"b\", \"colour\"".toList =
        .error (.unknownField "colour".toList) := by
  have hnodup : [Field.element].Nodup := by
    decide
  have hentry : Json.writeEntry ("element", "\"b\"".toList) ∈
      entryForms ⟨.literal, "", "b"⟩ .element :=
    Json.writeEntry_mem (Json.writeString_mem "b".toList)
  have hescaped : "\"\\u0065lement\"".toList ∈ Json.string "element".toList := by
    have hdigits : Json.HexForm 'e'.toNat "0065".toList :=
      .digits (w := 0) (x := 0) (y := 6) (z := 5) (Or.inl rfl) (Or.inl rfl) (Or.inl rfl)
        (Or.inl rfl)
    have hforms := Language.append_mem_mul (Json.CharForm.number hdigits)
      (Json.flatMap_writeChar_mem "lement".toList)
    exact Json.cons_mem_mul (Language.append_mem_mul hforms rfl)
  have hcolour : " \"colour\"".toList ∈ token (Json.string "colour".toList) :=
    Language.append_mem_mul (Json.singleton_mem_blanks (by decide))
      (Json.writeString_mem "colour".toList)
  have hbegin : ∀ {key form : Text}, form ∈ token (Json.string key) →
      '\x7b' :: (Json.writeEntry ("element", "\"b\"".toList) ++ ([','] ++ form ++ [])) ∈
        token (keyForms ⟨.literal, "", "b"⟩ [.element] key) := by
    intro key form hform
    have hbehind := Language.append_mem_mul
      (Language.append_mem_mul (Json.singleton_mem_mark ',') hform) Language.nil_mem_one
    exact Json.mem_token (Json.cons_mem_mul (Language.append_mem_mul hentry hbehind))
  constructor
  · exact ((read_judges_key _ hnodup (hbegin (Json.mem_token hescaped)) [']']).2 .element
      List.mem_cons_self rfl).1
  · have hunknown : ∀ field : Field, field.key.toList ≠ "colour".toList := by
      intro field
      cases field <;> decide
    exact ((read_judges_key _ hnodup (hbegin hcolour) []).1 hunknown).1

end CodeTint.Config
