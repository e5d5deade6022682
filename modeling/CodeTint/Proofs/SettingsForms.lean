import CodeTint.Proofs.Json.Forms
import CodeTint.Proofs.SettingsRoundTrip

/-!
# Settings are read from all their forms

An object may give any of the fields in any order, and an array gives the first of them in the
written order. Strings may be escaped in any way, blanks may stand in front of every token, and a
scheme is a string or an object whose only entry carries nothing. Each entry or element is read
as the choice that its field makes, so both kinds of document come down to the same run over the
fields: the fields given are replaced and the others keep their standard values.
-/

namespace CodeTint

namespace Json

/-- A written entry is one of its forms when the value is one. -/
theorem writeEntry_mem {key : String} {value : Text} {forms : Language Char} (h : value ∈ forms) :
    writeEntry (key, value) ∈ entry key.toList forms := by
  rw [writeEntry, List.append_assoc]
  exact Language.append_mem_mul (mem_token (writeString_mem _))
    (Language.append_mem_mul (singleton_mem_mark ':') (mem_token h))

/-- A written object is one of its forms when the entries are. -/
theorem writeObject_mem {entries : List (String × Text)} {forms : List (Language Char)}
    (h : List.Forall₂ (writeEntry · ∈ ·) entries forms) : writeObject entries ∈ object forms := by
  have hclose := singleton_mem_mark '\x7d'
  cases h with
  | nil => exact cons_mem_mul (Language.append_mem_mul Language.nil_mem_one hclose)
  | cons hfirst hothers =>
    rw [writeObject_cons, ← List.append_assoc]
    refine cons_mem_mul (Language.append_mem_mul (Language.append_mem_mul hfirst ?_) hclose)
    clear hfirst
    induction hothers with
    | nil => exact Language.nil_mem_one
    | cons hentry _ ih =>
      exact Language.append_mem_mul
        (Language.append_mem_mul (singleton_mem_mark ',') hentry) ih

end Json

open Json (Takes blanks token mark)

namespace Config

/-- Settings with some of the fields replaced by those of other settings. -/
def replace (base config : Config) (fields : List Field) : Config where
  scheme := if .scheme ∈ fields then config.scheme else base.scheme
  classPrefix := if .classPrefix ∈ fields then config.classPrefix else base.classPrefix
  element := if .element ∈ fields then config.element else base.element

/-- Both forms of a scheme: its name, or an object in which the name carries nothing. -/
def schemeForms (scheme : Scheme) : Language Char :=
  Json.string scheme.name.toList +
    Json.object [Json.entry scheme.name.toList {Json.writeNull}]

/-- The forms of the value of a field. -/
def valueForms (config : Config) : Field → Language Char
  | .scheme => schemeForms config.scheme
  | .classPrefix => Json.string config.classPrefix.toList
  | .element => Json.string config.element.toList

/-- The forms of the entry of a field. -/
def entryForms (config : Config) (field : Field) : Language Char :=
  Json.entry field.key.toList (config.valueForms field)

/-- The objects that give the fields of a list. -/
def objectForms (config : Config) (fields : List Field) : Language Char :=
  Json.object (fields.map config.entryForms)

/-- The arrays that give the fields of a list. -/
def arrayForms (config : Config) (fields : List Field) : Language Char :=
  Json.array (fields.map config.valueForms)

/-- Replacing by one field and then by others replaces by all of them. -/
theorem replace_cons (base config : Config) (field : Field) (fields : List Field) :
    (base.replace config [field]).replace config fields =
      base.replace config (field :: fields) := by
  cases field <;> simp [replace]

/-- A choice adopted over the standard settings replaces its field. -/
theorem override_adopt_one (base config : Config) (choices : Choices) (field : Field) :
    base.override (choices.adopt config field) =
      (base.override choices).replace config [field] := by
  cases field <;> simp [override, Choices.adopt, replace]

/-- Choices adopted one after the other replace their fields. -/
theorem override_foldl_adopt (base config : Config) (choices : Choices) (fields : List Field) :
    base.override (fields.foldl (·.adopt config) choices) =
      (base.override choices).replace config fields := by
  induction fields generalizing choices with
  | nil => rfl
  | cons field fields ih => rw [List.foldl_cons, ih, override_adopt_one, replace_cons]

/-! ### The written form -/

/-- The written name of a scheme is one of its forms. -/
theorem writeWord_mem (scheme : Scheme) : Json.writeWord scheme.name ∈ schemeForms scheme :=
  Or.inl (Json.writeString_mem _)

/-- So is the written object in which the name carries nothing. -/
theorem writeWrapped_mem (scheme : Scheme) :
    Json.writeObject [(scheme.name, Json.writeNull)] ∈ schemeForms scheme :=
  Or.inr (Json.writeObject_mem (.cons (Json.writeEntry_mem rfl) .nil))

/-- The written value of a field is one of its forms. -/
theorem written_mem (config : Config) (field : Field) :
    config.written field ∈ config.valueForms field := by
  cases field with
  | scheme => exact writeWord_mem config.scheme
  | classPrefix => exact Json.writeString_mem _
  | element => exact Json.writeString_mem _

/-- The written object of fields is one of their objects. -/
theorem write_mem_objectForms (config : Config) (fields : List Field) :
    Json.writeObject (fields.map config.entry) ∈ config.objectForms fields := by
  refine Json.writeObject_mem ?_
  rw [List.forall₂_map_left_iff, List.forall₂_map_right_iff, List.forall₂_same]
  exact fun field _ => Json.writeEntry_mem (config.written_mem field)

/-! ### Tokens of the settings -/

/-- A mark is read behind its gap. -/
theorem readMark_append {c : Char} (hc : Json.isSpace c = false) {form : Text} (h : form ∈ mark c)
    (rest : Text) : readMark c (form ++ rest) = .ok rest := by
  rw [readMark, Json.skipSpace_mark hc h]
  exact if_pos rfl

/-- Behind the gap of a string stands its quote, and what stands behind that is read as its
text. -/
theorem exists_of_mem_token_string {text form : Text} (h : form ∈ token (Json.string text)) :
    ∃ inner, (∀ rest, Json.skipSpace (form ++ rest) = '"' :: (inner ++ rest)) ∧
      ∀ rest, ofJson (Json.readString (inner ++ rest)) = .ok (text, rest) := by
  obtain ⟨inner, hinner, hskip⟩ := Json.exists_of_mem_token rfl h
  refine ⟨inner, hskip, fun rest => ?_⟩
  rw [Json.takes_readString text inner hinner]
  rfl

/-- A string is taken as its text. -/
theorem takes_readText (text : Text) : Takes readText (token (Json.string text)) text := by
  intro form hform rest
  obtain ⟨inner, hskip, hread⟩ := exists_of_mem_token_string hform
  rw [readText, hskip]
  exact hread rest

/-- A key is taken as its text. -/
theorem takes_readKey (text : Text) : Takes readKey (token (Json.string text)) text := by
  intro form hform rest
  obtain ⟨inner, hskip, hread⟩ := exists_of_mem_token_string hform
  rw [readKey, hskip]
  exact hread rest

/-- The word for nothing is read behind its gap. -/
theorem readNothing_append {form : Text} (h : form ∈ token {Json.writeNull}) (rest : Text) :
    readNothing (form ++ rest) = .ok rest := by
  obtain ⟨gap, hgap, word, hword, rfl⟩ := Language.mem_mul.mp h
  obtain rfl : word = Json.writeNull := hword
  rw [readNothing, List.append_assoc, Json.skipSpace_append hgap]
  rfl

/-- The name of a scheme leads to it. -/
theorem schemeNamed_name (scheme : Scheme) : schemeNamed scheme.name.toList = .ok scheme := by
  rw [schemeNamed, String.ofList_toList, Scheme.ofName?_name]

/-- An object with one entry is taken as the scheme with the name that is its key. -/
theorem takes_readWrappedScheme (scheme : Scheme) :
    Takes readWrappedScheme
      (Json.listed [Json.entry scheme.name.toList {Json.writeNull}] * mark '\x7d') scheme := by
  intro form hform rest
  obtain ⟨entries, hentries, close, hclose, rfl⟩ := Language.mem_mul.mp hform
  rw [Json.listed, List.map_nil, List.prod_nil, mul_one] at hentries
  obtain ⟨key, hkey, behind, hbehind, rfl⟩ := Language.mem_mul.mp hentries
  obtain ⟨colon, hcolon, value, hvalue, rfl⟩ := Language.mem_mul.mp hbehind
  simp only [List.append_assoc, readWrappedScheme, takes_readKey _ key hkey, schemeNamed_name,
    readMark_append rfl hcolon, readNothing_append hvalue, readMark_append rfl hclose, bind,
    Except.bind, pure, Except.pure]

/-- Both forms of a scheme are taken as the scheme. -/
theorem takes_readScheme (scheme : Scheme) :
    Takes readScheme (token (schemeForms scheme)) scheme := by
  rw [token, schemeForms, mul_add]
  refine Takes.add (fun form hform rest => ?_) fun form hform rest => ?_
  · obtain ⟨inner, hskip, hread⟩ := exists_of_mem_token_string hform
    rw [readScheme, hskip]
    simp only [if_pos, hread, schemeNamed_name, bind, Except.bind, pure, Except.pure]
  · obtain ⟨body, hbody, hskip⟩ := Json.exists_of_mem_token rfl hform
    rw [readScheme, hskip]
    simp only [Char.reduceEq, if_false, if_true, takes_readWrappedScheme scheme body hbody]

/-- A value is taken as the choice that its field makes. -/
theorem takes_readField (config : Config) (choices : Choices) (field : Field) :
    Takes (readField choices field) (token (config.valueForms field))
      (choices.adopt config field) := by
  intro form hform rest
  cases field with
  | scheme =>
    rw [readField, takes_readScheme config.scheme form hform]
    rfl
  | classPrefix =>
    rw [readField, takes_readText _ form hform, Except.map, String.ofList_toList]
    rfl
  | element =>
    rw [readField, takes_readText _ form hform, Except.map, String.ofList_toList]
    rfl

/-! ### Objects -/

/-- An entry is a quote behind a gap, and what stands behind the quote makes the choice of its
field. -/
theorem exists_of_mem_entryForms {config : Config} {field : Field} {form : Text}
    (h : form ∈ config.entryForms field) :
    ∃ inner, (∀ rest, Json.skipSpace (form ++ rest) = '"' :: (inner ++ rest)) ∧
      ∀ choices : Choices, choices.has field = false → ∀ rest,
        readEntry choices (inner ++ rest) = .ok (choices.adopt config field, rest) := by
  obtain ⟨key, hkey, behind, hbehind, rfl⟩ := Language.mem_mul.mp h
  obtain ⟨colon, hcolon, value, hvalue, rfl⟩ := Language.mem_mul.mp hbehind
  obtain ⟨inner, hskip, hread⟩ := exists_of_mem_token_string hkey
  refine ⟨inner ++ (colon ++ value), fun rest => ?_, fun choices hopen rest => ?_⟩
  · rw [List.append_assoc, hskip, List.append_assoc inner]
  · simp only [List.append_assoc, readEntry, hread, fieldNamed_key hopen,
      readMark_append rfl hcolon, takes_readField config choices field value hvalue, bind,
      Except.bind]

/-- The first entry of an object makes its choice. -/
theorem readEntries_first {config : Config} {choices : Choices} {field : Field}
    (hopen : choices.has field = false) {form : Text} (h : form ∈ config.entryForms field)
    (rest : Text) :
    readEntries choices true (form ++ rest) =
      readEntries (choices.adopt config field) false rest := by
  obtain ⟨inner, hskip, hread⟩ := exists_of_mem_entryForms h
  have hkey : nextKey true (form ++ rest) = .ok (.item (inner ++ rest)) := by
    rw [nextKey, hskip]
    rfl
  exact readEntries_item hkey (hread choices hopen rest)

/-- Every other entry makes its choice behind a comma. -/
theorem readEntries_next {config : Config} {choices : Choices} {field : Field}
    (hopen : choices.has field = false) {form : Text}
    (h : form ∈ mark ',' * config.entryForms field) (rest : Text) :
    readEntries choices false (form ++ rest) =
      readEntries (choices.adopt config field) false rest := by
  obtain ⟨comma, hcomma, entry, hentry, rfl⟩ := Language.mem_mul.mp h
  obtain ⟨inner, hskip, hread⟩ := exists_of_mem_entryForms hentry
  have hkey : nextKey false (comma ++ entry ++ rest) = .ok (.item (inner ++ rest)) := by
    rw [nextKey, List.append_assoc, Json.skipSpace_mark rfl hcomma]
    simp only [hskip]
    rfl
  exact readEntries_item hkey (hread choices hopen rest)

/-- The closing brace ends the object, whether or not there was an entry. -/
theorem takes_readEntries_close (choices : Choices) (first : Bool) :
    Takes (readEntries choices first) (mark '\x7d') choices := by
  intro form hform rest
  refine readEntries_over ?_
  rw [nextKey, Json.skipSpace_mark rfl hform]
  rfl

/-- The entries of open fields, each behind a comma, make their choices, whatever stands behind
them. -/
theorem readEntries_others (config : Config) {fields : List Field} (hnodup : fields.Nodup)
    {choices : Choices} (hopen : ∀ field ∈ fields, choices.has field = false) {form : Text}
    (h : form ∈ ((fields.map config.entryForms).map (mark ',' * ·)).prod) (rest : Text) :
    readEntries choices false (form ++ rest) =
      readEntries (fields.foldl (·.adopt config) choices) false rest := by
  induction fields generalizing form choices with
  | nil =>
    obtain rfl : form = [] := h
    rfl
  | cons field fields ih =>
    rw [List.map_cons, List.map_cons, List.prod_cons] at h
    obtain ⟨first, hfirst, others, hothers, rfl⟩ := Language.mem_mul.mp h
    -- every entry closes one choice, and those of the fields behind it are still open
    rw [List.append_assoc, readEntries_next (hopen field List.mem_cons_self) hfirst,
      ih (List.nodup_cons.mp hnodup).2 (open_adopt config hnodup hopen) hothers, List.foldl_cons]

/-- The entries of open fields, each behind a comma, make their choices up to the closing brace. -/
theorem takes_readEntries (config : Config) {fields : List Field} (hnodup : fields.Nodup)
    {choices : Choices} (hopen : ∀ field ∈ fields, choices.has field = false) :
    Takes (readEntries choices false)
      (((fields.map config.entryForms).map (mark ',' * ·)).prod * mark '\x7d')
      (fields.foldl (·.adopt config) choices) :=
  Takes.mul (fun _ hform => readEntries_others config hnodup hopen hform)
    (takes_readEntries_close _ false)

/-- An object that gives different fields makes their choices. -/
theorem takes_readChoices_object (config : Config) {fields : List Field} (hnodup : fields.Nodup) :
    Takes readChoices (token (config.objectForms fields))
      (fields.foldl (·.adopt config) .none) := by
  have hentries : Takes (readEntries .none true)
      (Json.listed (fields.map config.entryForms) * mark '\x7d')
      (fields.foldl (·.adopt config) .none) := by
    cases fields with
    | nil =>
      rw [List.map_nil, Json.listed, one_mul]
      exact takes_readEntries_close .none true
    | cons field fields =>
      rw [List.map_cons, Json.listed, mul_assoc]
      exact Takes.mul (fun form hform => readEntries_first (Choices.has_none field) hform)
        (takes_readEntries config (List.nodup_cons.mp hnodup).2
          (open_adopt config hnodup fun other _ => Choices.has_none other))
  intro form hform rest
  obtain ⟨body, hbody, hskip⟩ := Json.exists_of_mem_token rfl hform
  rw [readChoices, hskip]
  simp only [Char.reduceEq, if_false, if_true, hentries body hbody]

/-! ### Arrays -/

/-- A value starts with a quote or an opening brace. -/
theorem exists_of_mem_valueForms {config : Config} {field : Field} {form : Text}
    (h : form ∈ config.valueForms field) :
    ∃ c inner, (c = '"' ∨ c = '\x7b') ∧ form = c :: inner := by
  have hstring : ∀ text, form ∈ Json.string text →
      ∃ c inner, (c = '"' ∨ c = '\x7b') ∧ form = c :: inner := by
    intro text hform
    obtain ⟨inner, -, rfl⟩ := Json.exists_of_mem_cons hform
    exact ⟨'"', inner, Or.inl rfl, rfl⟩
  cases field with
  | scheme =>
    rcases (Language.mem_add _ _ _).mp h with hname | hobject
    · exact hstring _ hname
    · obtain ⟨inner, -, rfl⟩ := Json.exists_of_mem_cons hobject
      exact ⟨'\x7b', inner, Or.inr rfl, rfl⟩
  | classPrefix => exact hstring _ h
  | element => exact hstring _ h

/-- Without its gap a value is a form of the same value, and no closing bracket. -/
theorem exists_of_mem_token_valueForms {config : Config} {field : Field} {form : Text}
    (h : form ∈ token (config.valueForms field)) :
    ∃ c inner, c ≠ ']' ∧ (∀ rest, Json.skipSpace (form ++ rest) = c :: (inner ++ rest)) ∧
      c :: inner ∈ token (config.valueForms field) := by
  -- the step to an element has skipped its gap already, so the reader of the field meets none
  obtain ⟨gap, hgap, value, hvalue, rfl⟩ := Language.mem_mul.mp h
  obtain ⟨c, inner, hc, rfl⟩ := exists_of_mem_valueForms hvalue
  have hmarks : c ≠ ']' ∧ Json.isSpace c = false := by
    rcases hc with rfl | rfl <;> decide
  refine ⟨c, inner, hmarks.1, fun rest => ?_, Json.mem_token hvalue⟩
  rw [List.append_assoc, Json.skipSpace_append hgap, List.cons_append,
    Json.skipSpace_cons hmarks.2]

/-- One element of an array is read and the others are left. -/
theorem readElements_item {choices result : Choices} {first : Bool} {field : Field}
    {fields : List Field} {text behind rest : Text}
    (hnext : nextElement first text = .ok (.item behind))
    (hfield : readField choices field behind = .ok (result, rest)) :
    readElements choices first (field :: fields) text = readElements result false fields rest := by
  rw [readElements, hnext]
  simp only [bind, Except.bind, hfield]

/-- The first element of an array makes its choice. -/
theorem readElements_first {config : Config} {choices : Choices} {field : Field}
    (fields : List Field) {form : Text} (h : form ∈ token (config.valueForms field))
    (rest : Text) :
    readElements choices true (field :: fields) (form ++ rest) =
      readElements (choices.adopt config field) false fields rest := by
  obtain ⟨c, inner, hc, hskip, hvalue⟩ := exists_of_mem_token_valueForms h
  have hnext : nextElement true (form ++ rest) = .ok (.item (c :: inner ++ rest)) := by
    rw [nextElement, hskip]
    exact if_neg hc
  exact readElements_item hnext (takes_readField config choices field _ hvalue rest)

/-- Every other element makes its choice behind a comma. -/
theorem readElements_next {config : Config} {choices : Choices} {field : Field}
    (fields : List Field) {form : Text} (h : form ∈ mark ',' * token (config.valueForms field))
    (rest : Text) :
    readElements choices false (field :: fields) (form ++ rest) =
      readElements (choices.adopt config field) false fields rest := by
  obtain ⟨comma, hcomma, value, hform, rfl⟩ := Language.mem_mul.mp h
  obtain ⟨c, inner, hc, hskip, hvalue⟩ := exists_of_mem_token_valueForms hform
  have hnext : nextElement false (comma ++ value ++ rest) = .ok (.item (c :: inner ++ rest)) := by
    rw [nextElement, List.append_assoc, Json.skipSpace_mark rfl hcomma]
    simp only [hskip]
    exact if_neg hc
  exact readElements_item hnext (takes_readField config choices field _ hvalue rest)

/-- The closing bracket ends the array, whichever fields are left. -/
theorem takes_readElements_close (choices : Choices) (first : Bool) (fields : List Field) :
    Takes (readElements choices first fields) (mark ']') choices := by
  intro form hform rest
  cases fields with
  | nil =>
    rw [readElements, readMark_append rfl hform]
    rfl
  | cons field fields =>
    rw [readElements, nextElement, Json.skipSpace_mark rfl hform]
    rfl

/-- The values of fields, each behind a comma, make their choices. -/
theorem takes_readElements (config : Config) (fields left : List Field) (choices : Choices) :
    Takes (readElements choices false (fields ++ left))
      ((((fields.map config.valueForms).map token).map (mark ',' * ·)).prod * mark ']')
      (fields.foldl (·.adopt config) choices) := by
  induction fields generalizing choices with
  | nil =>
    rw [List.map_nil, List.map_nil, List.map_nil, List.prod_nil, one_mul]
    exact takes_readElements_close choices false left
  | cons field fields ih =>
    rw [List.map_cons, List.map_cons, List.map_cons, List.prod_cons, mul_assoc]
    -- the array may stop at any field, so those that are left play no part before its end
    exact Takes.mul (fun form hform => readElements_next (fields ++ left) hform)
      (ih (choices.adopt config field))

/-- An array that gives the first fields makes their choices. -/
theorem takes_readChoices_array (config : Config) {fields : List Field}
    (h : fields <+: Field.all) :
    Takes readChoices (token (config.arrayForms fields))
      (fields.foldl (·.adopt config) .none) := by
  obtain ⟨left, hall⟩ := h
  have helements : Takes (readElements .none true (fields ++ left))
      (Json.listed ((fields.map config.valueForms).map token) * mark ']')
      (fields.foldl (·.adopt config) .none) := by
    cases fields with
    | nil =>
      rw [List.map_nil, List.map_nil, Json.listed, one_mul]
      exact takes_readElements_close .none true left
    | cons field fields =>
      rw [List.map_cons, List.map_cons, Json.listed, mul_assoc]
      exact Takes.mul (fun form hform => readElements_first (fields ++ left) hform)
        (takes_readElements config fields left (Choices.none.adopt config field))
  intro form hform rest
  obtain ⟨body, hbody, hskip⟩ := Json.exists_of_mem_token rfl hform
  rw [readChoices, hskip, ← hall]
  exact (if_pos rfl).trans (helements body hbody rest)

/-! ### Documents -/

/-- A document that makes the choices of some fields replaces them in the standard settings. -/
theorem read_of_takes {config : Config} {fields : List Field} {forms : Language Char}
    (htakes : Takes readChoices (token forms) (fields.foldl (·.adopt config) .none)) {text : Text}
    (h : text ∈ Json.document forms) : read text = .ok (standard.replace config fields) := by
  obtain ⟨value, hvalue, gap, hgap, rfl⟩ := Language.mem_mul.mp h
  have hdocument : readDocument (value ++ gap) = .ok (fields.foldl (·.adopt config) .none) := by
    rw [readDocument, htakes value hvalue]
    -- only the blanks at the end of the document are left
    simp only [bind, Except.bind, Json.skipSpace_eq_nil hgap]
    rfl
  rw [read, hdocument, Except.map, override_foldl_adopt, override_none]

/-- Which fields are replaced does not depend on their order. -/
theorem replace_perm (base config : Config) {fields others : List Field}
    (h : fields.Perm others) : base.replace config fields = base.replace config others := by
  simp only [replace, h.mem_iff]

/-- Every document that gives different fields is read as the standard settings with exactly these
fields replaced: an object in any order of the fields and, when they are the first fields of the
written order, an array of their values in that order. -/
theorem read_forms_agree (config : Config) {fields : List Field} (hnodup : fields.Nodup) :
    (∀ text ∈ Json.document (config.objectForms fields),
        read text = .ok (standard.replace config fields)) ∧
      ∀ given, given <+: Field.all → given.Perm fields →
        ∀ text ∈ Json.document (config.arrayForms given),
          read text = .ok (standard.replace config fields) := by
  refine ⟨fun text h => read_of_takes (takes_readChoices_object config hnodup) h, ?_⟩
  intro given hall hperm text h
  rw [← replace_perm standard config hperm]
  exact read_of_takes (takes_readChoices_array config hall) h

/-- An object against the written order, with blanks around it and an escaped character, and an
array with a blank in it; the scheme of both carries nothing. -/
theorem read_forms_agree_wrapped :
    read " \x7b\"class_prefix\":\"\\u006B-\",\"scheme\":\x7b\"split\":null\x7d\x7d\n".toList =
        .ok ⟨.split, "k-", "span"⟩ ∧
      read "[\x7b\"split\":null\x7d, \"k-\"]".toList = .ok ⟨.split, "k-", "span"⟩ := by
  have hnodup : [Field.classPrefix, Field.scheme].Nodup := by
    decide
  have hagree := read_forms_agree ⟨.split, "k-", "span"⟩ hnodup
  have hblank : [' '] ∈ blanks := Json.singleton_mem_blanks (by decide)
  have hbreak : ['\n'] ∈ blanks := Json.singleton_mem_blanks (by decide)
  have hescaped : "\"\\u006B-\"".toList ∈ Json.string "k-".toList := by
    have hdigits : Json.HexForm 'k'.toNat "006B".toList :=
      .digits (w := 0) (x := 0) (y := 6) (z := 11) (Or.inl rfl) (Or.inl rfl) (Or.inl rfl)
        (Or.inr rfl)
    have hforms := Language.append_mem_mul (Json.CharForm.number hdigits)
      (Json.flatMap_writeChar_mem ['-'])
    exact Json.cons_mem_mul (Language.append_mem_mul hforms rfl)
  have hscheme := writeWrapped_mem .split
  constructor
  · have hobject : Json.writeObject [("class_prefix", "\"\\u006B-\"".toList),
          ("scheme", Json.writeObject [("split", Json.writeNull)])] ∈
        objectForms ⟨.split, "k-", "span"⟩ [.classPrefix, .scheme] :=
      Json.writeObject_mem
        (.cons (Json.writeEntry_mem hescaped) (.cons (Json.writeEntry_mem hscheme) .nil))
    exact hagree.1 _ (Language.append_mem_mul (Language.append_mem_mul hblank hobject) hbreak)
  · have hothers := Language.append_mem_mul (Json.singleton_mem_mark ',')
      (Language.append_mem_mul hblank (Json.writeString_mem "k-".toList))
    have hvalues := Language.append_mem_mul (Json.mem_token hscheme)
      (Language.append_mem_mul hothers Language.nil_mem_one)
    have harray := Json.cons_mem_mul (c := '[')
      (Language.append_mem_mul hvalues (Json.singleton_mem_mark ']'))
    exact hagree.2 [.scheme, .classPrefix] (by decide) (by decide) _
      (Language.append_mem_mul (Json.mem_token harray) Json.nil_mem_blanks)

end Config

end CodeTint
