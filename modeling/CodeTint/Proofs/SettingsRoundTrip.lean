import CodeTint.Config.Reader
import CodeTint.Config.Writer
import CodeTint.Proofs.Quotation

/-!
# Settings are read back

A document of settings is written as an object with one entry for each field. Each entry is read as
the choice that its field makes, in whatever order the entries stand, and once every field has made
its choice the standard settings have nothing left to say.
-/

namespace CodeTint

namespace Json

/-- Nothing is skipped in front of a character that is no blank. -/
theorem skipSpace_cons {c : Char} (h : isSpace c = false) (rest : Text) :
    skipSpace (c :: rest) = c :: rest :=
  List.dropWhile_cons_of_neg (ne_true_of_eq_false h)

/-- Pieces with a mark between them are the first piece and, each behind a mark, the others. -/
theorem flatten_intersperse_cons (mark first : Text) (others : List Text) :
    ((first :: others).intersperse mark).flatten = first ++ others.flatMap (mark ++ ·) := by
  induction others generalizing first with
  | nil => rfl
  | cons second others ih =>
    rw [List.intersperse_cons_cons, List.flatten_cons, List.flatten_cons, ih, List.flatMap_cons,
      List.append_assoc]

/-- An object is its first entry and, each behind a comma, the others. -/
theorem writeObject_cons (first : String × Text) (others : List (String × Text)) :
    writeObject (first :: others) =
      '\x7b' :: (writeEntry first ++ (others.flatMap (',' :: writeEntry ·) ++ ['\x7d'])) := by
  simp only [writeObject, List.map_cons, flatten_intersperse_cons, List.flatMap_map,
    List.cons_append, List.nil_append, List.append_assoc]

/-- An entry is its key behind an opening quote, the closing one, a colon and the value. -/
theorem writeEntry_append (entry : String × Text) (rest : Text) :
    writeEntry entry ++ rest =
      '"' :: (entry.1.toList.flatMap writeChar ++ '"' :: ':' :: (entry.2 ++ rest)) := by
  rw [writeEntry, List.append_assoc, List.append_assoc, writeString_append]
  rfl

end Json

namespace Config

/-- What the value of a field is written as. -/
def written (config : Config) : Field → Text
  | .scheme => Json.writeWord config.scheme.name
  | .classPrefix => Json.writeWord config.classPrefix
  | .element => Json.writeWord config.element

/-- The entry that a field is written as. -/
def entry (config : Config) (field : Field) : String × Text :=
  (field.key, config.written field)

/-- The choices with that of a field made as the settings have it. -/
def Choices.adopt (choices : Choices) (config : Config) : Field → Choices
  | .scheme => { choices with scheme := some config.scheme }
  | .classPrefix => { choices with classPrefix := some config.classPrefix }
  | .element => { choices with element := some config.element }

/-- Settings are written as the entries of their fields. -/
theorem write_eq (config : Config) : config.write = Json.writeObject (Field.all.map config.entry) :=
  rfl

/-- A choice is made when it was made before or is the one adopted. -/
theorem Choices.has_adopt (choices : Choices) (config : Config) (field other : Field) :
    (choices.adopt config field).has other = (choices.has other || decide (field = other)) := by
  cases field <;> cases other <;> simp [Choices.has, Choices.adopt]

/-- Without choices every choice is open. -/
theorem Choices.has_none (field : Field) : Choices.none.has field = false := by
  cases field <;> rfl

/-- Choices adopted for every field leave nothing to the standard settings. -/
theorem override_adopt (standard config : Config) (choices : Choices) :
    standard.override (Field.all.foldl (·.adopt config) choices) = config :=
  rfl

/-- A written string is read behind its opening quote as a part of the settings, too. -/
theorem readString_written (text rest : Text) :
    ofJson (Json.readString (text.flatMap Json.writeChar ++ '"' :: rest)) = .ok (text, rest) := by
  rw [Json.readString_flatMap]
  rfl

/-- A written word is read as the string that it is. -/
theorem readText_writeWord (word : String) (rest : Text) :
    readText (Json.writeWord word ++ rest) = .ok (word.toList, rest) := by
  rw [readText, Json.writeWord, Json.writeString_append, Json.skipSpace_cons rfl]
  simp only [readString_written]

/-- The written name of a scheme is read as the scheme. -/
theorem readScheme_writeWord (scheme : Scheme) (rest : Text) :
    readScheme (Json.writeWord scheme.name ++ rest) = .ok (scheme, rest) := by
  have hnamed : schemeNamed scheme.name.toList = .ok scheme := by
    rw [schemeNamed, String.ofList_toList, Scheme.ofName?_name]
  rw [readScheme, Json.writeWord, Json.writeString_append, Json.skipSpace_cons rfl]
  simp only [if_pos, readString_written, hnamed, bind, Except.bind, pure, Except.pure]

/-- The written value of a field makes its choice. -/
theorem readField_written (config : Config) (choices : Choices) (field : Field) (rest : Text) :
    readField choices field (config.written field ++ rest) =
      .ok (choices.adopt config field, rest) := by
  cases field with
  | scheme =>
    rw [readField, written, readScheme_writeWord]
    rfl
  | classPrefix =>
    rw [readField, written, readText_writeWord, Except.map, String.ofList_toList]
    rfl
  | element =>
    rw [readField, written, readText_writeWord, Except.map, String.ofList_toList]
    rfl

/-- The key of a field whose choice is open names it. -/
theorem fieldNamed_key {choices : Choices} {field : Field} (hopen : choices.has field = false) :
    fieldNamed choices field.key.toList = .ok field := by
  simp only [fieldNamed, String.ofList_toList, Field.ofKey?_key, hopen, Bool.false_eq_true,
    if_false]

/-- The entry of a field whose choice is open makes it. -/
theorem readEntry_written (config : Config) {choices : Choices} {field : Field}
    (hopen : choices.has field = false) (rest : Text) :
    readEntry choices (field.key.toList.flatMap Json.writeChar ++
        '"' :: ':' :: (config.written field ++ rest)) =
      .ok (choices.adopt config field, rest) := by
  have hmark : readMark ':' (':' :: (config.written field ++ rest)) =
      .ok (config.written field ++ rest) := rfl
  simp only [readEntry, readString_written, bind, Except.bind, fieldNamed_key hopen, hmark,
    readField_written]

/-- At the closing brace the object is over. -/
theorem readEntries_over {choices : Choices} {first : Bool} {text rest : Text}
    (hkey : nextKey first text = .ok (.over rest)) :
    readEntries choices first text = .ok (choices, rest) := by
  rw [readEntries, hkey]

/-- One entry of an object is read and the others are left. -/
theorem readEntries_item {choices result : Choices} {first : Bool} {text behind rest : Text}
    (hkey : nextKey first text = .ok (.item behind))
    (hentry : readEntry choices behind = .ok (result, rest)) :
    readEntries choices first text = readEntries result false rest := by
  rw [readEntries, hkey]
  dsimp only
  split
  · next fault hfault => cases hentry.symm.trans hfault
  · next found left hleft =>
    obtain ⟨rfl, rfl⟩ := Prod.mk.inj (Except.ok.inj (hentry.symm.trans hleft))
    rfl

/-- A field met once leaves the choices of the others open. -/
theorem open_adopt (config : Config) {field : Field} {fields : List Field}
    (hnodup : (field :: fields).Nodup) {choices : Choices}
    (hopen : ∀ other ∈ field :: fields, choices.has other = false) :
    ∀ other ∈ fields, (choices.adopt config field).has other = false := by
  intro other hother
  rw [Choices.has_adopt, hopen other (List.mem_cons_of_mem field hother), Bool.false_or,
    decide_eq_false_iff_not]
  rintro rfl
  exact (List.nodup_cons.mp hnodup).1 hother

/-- The entries of open fields, each behind a comma, are read up to the closing brace. -/
theorem readEntries_written (config : Config) {fields : List Field} (hnodup : fields.Nodup)
    {choices : Choices} (hopen : ∀ field ∈ fields, choices.has field = false) (rest : Text) :
    readEntries choices false
        ((fields.map config.entry).flatMap (',' :: Json.writeEntry ·) ++ '\x7d' :: rest) =
      .ok (fields.foldl (·.adopt config) choices, rest) := by
  induction fields generalizing choices with
  | nil => exact readEntries_over rfl
  | cons field fields ih =>
    -- every entry closes one choice, and those of the fields behind it are still open
    rw [List.map_cons, List.flatMap_cons, List.cons_append, List.cons_append, List.append_assoc,
      Json.writeEntry_append, List.foldl_cons,
      ← ih (List.nodup_cons.mp hnodup).2 (open_adopt config hnodup hopen)]
    exact readEntries_item rfl (readEntry_written config (hopen field List.mem_cons_self) _)

/-- A document that is one object makes the choices of its entries. -/
theorem readDocument_object {choices : Choices} {body : Text}
    (hentries : readEntries .none true body = .ok (choices, [])) :
    readDocument ('\x7b' :: body) = .ok choices := by
  rw [readDocument, readChoices, Json.skipSpace_cons rfl]
  simp only [Char.reduceEq, if_false, if_true, hentries, bind, Except.bind]
  rfl

/-- An object with the entries of different fields makes their choices. -/
theorem readDocument_written (config : Config) {fields : List Field} (hnodup : fields.Nodup) :
    readDocument (Json.writeObject (fields.map config.entry)) =
      .ok (fields.foldl (·.adopt config) .none) := by
  cases fields with
  | nil => exact readDocument_object (readEntries_over rfl)
  | cons field fields =>
    have hopen : ∀ other ∈ field :: fields, Choices.none.has other = false := fun other _ =>
      Choices.has_none other
    have hentries : readEntries .none true (Json.writeEntry (config.entry field) ++
        ((fields.map config.entry).flatMap (',' :: Json.writeEntry ·) ++ ['\x7d'])) =
          .ok ((field :: fields).foldl (·.adopt config) .none, []) := by
      rw [Json.writeEntry_append, List.foldl_cons,
        ← readEntries_written config (List.nodup_cons.mp hnodup).2 (open_adopt config hnodup hopen)]
      exact readEntries_item rfl (readEntry_written config (Choices.has_none field) _)
    rw [List.map_cons, Json.writeObject_cons]
    exact readDocument_object hentries

/-- Written settings are read back as they were. -/
theorem read_write (config : Config) : read config.write = .ok config := by
  have hnodup : Field.all.Nodup := by
    decide
  rw [read, write_eq, readDocument_written config hnodup, Except.map, override_adopt]

end Config

end CodeTint
