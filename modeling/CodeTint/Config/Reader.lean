import CodeTint.Config.Fault

/-!
# Reading settings

Settings are an object with any of the fields in any order, or an array of their values in the
written order whose tail may be missing; a field that is not given keeps its standard value. A
scheme is a string, or an object whose only key is the name and whose value is null. The document
is read once from left to right and the first fault met is reported: a key is judged as soon as
its string has been read, a scheme as soon as its name has been.
-/

namespace CodeTint.Config

/-- A reading of plain JSON as part of a reading of settings. -/
def ofJson {α : Type} (reading : Except Json.Fault α) : Except Fault α :=
  reading.mapError .json

/-- Why the value in front of the text is refused where something else is called for. -/
def refusal (expected : Expected) (text : Text) : Fault :=
  match Json.Found.read text with
  | .ok found => .wrongType found expected
  | .error fault => .json fault

/-- The string that is the value of a field. -/
def readText (text : Text) : Except Fault (Text × Text) :=
  match Json.skipSpace text with
  | '"' :: rest => ofJson (Json.readString rest)
  | found => .error (refusal .text found)

/-- A key that must come next. Nothing but a string can be one, so anything else is malformed from
its first character on. -/
def readKey (text : Text) : Except Fault (Text × Text) :=
  match Json.skipSpace text with
  | [] => .error (.json .truncated)
  | c :: rest =>
    if c = '"' then ofJson (Json.readString rest) else .error (.json .malformed)

/-- The text behind one character that must come next. -/
def readMark (mark : Char) (text : Text) : Except Fault Text :=
  match Json.skipSpace text with
  | [] => .error (.json .truncated)
  | c :: rest => if c = mark then .ok rest else .error (.json .malformed)

/-- The scheme with a name that has just been read. -/
def schemeNamed (word : Text) : Except Fault Scheme :=
  match Scheme.ofName? (String.ofList word) with
  | some scheme => .ok scheme
  | none => .error (.unknownScheme word)

/-- The null that a scheme in an object carries. -/
def readNothing (text : Text) : Except Fault Text :=
  match Json.skipSpace text with
  | 'n' :: rest => ofJson (Json.readWord "ull".toList rest)
  | found => .error (refusal .nothing found)

/-- A scheme as an object with one entry, behind its opening brace. -/
def readWrappedScheme (text : Text) : Except Fault (Scheme × Text) := do
  let (word, rest) ← readKey text
  let scheme ← schemeNamed word
  let rest ← readMark ':' rest
  let rest ← readNothing rest
  let rest ← readMark '\x7d' rest
  return (scheme, rest)

/-- A scheme as a string or as an object. -/
def readScheme (text : Text) : Except Fault (Scheme × Text) :=
  match Json.skipSpace text with
  | [] => .error (.json .truncated)
  | c :: rest =>
    if c = '"' then do
      let (word, rest) ← ofJson (Json.readString rest)
      let scheme ← schemeNamed word
      return (scheme, rest)
    else if c = '\x7b' then readWrappedScheme rest
    else .error (.json .malformed)

/-- The value of a field, added to the choices. -/
def readField (choices : Choices) (field : Field) (text : Text) : Except Fault (Choices × Text) :=
  match field with
  | .scheme => (readScheme text).map fun result =>
      ({ choices with scheme := some result.1 }, result.2)
  | .classPrefix => (readText text).map fun result =>
      ({ choices with classPrefix := some (String.ofList result.1) }, result.2)
  | .element => (readText text).map fun result =>
      ({ choices with element := some (String.ofList result.1) }, result.2)

/-- The text of the next item of an array or object, or the text behind its closing mark. -/
inductive Step where
  /-- An item follows. -/
  | item (rest : Text)
  /-- The array or object is over. -/
  | over (rest : Text)
deriving DecidableEq, Repr

/-- The step to the next element of an array: the first element needs no comma before it, and no
closing bracket may follow a comma. -/
def nextElement (first : Bool) (text : Text) : Except Fault Step :=
  match Json.skipSpace text with
  | [] => .error (.json .truncated)
  | c :: rest =>
    if c = ']' then .ok (.over rest)
    else if first then .ok (.item (c :: rest))
    else if c = ',' then
      match Json.skipSpace rest with
      | [] => .error (.json .truncated)
      | d :: behind =>
        if d = ']' then .error (.json .malformed) else .ok (.item (d :: behind))
    else .error (.json .malformed)

/-- The step into the next key of an object, behind its opening quote: the first key needs no
comma before it, and no closing brace may follow a comma. -/
def nextKey (first : Bool) (text : Text) : Except Fault Step :=
  match Json.skipSpace text with
  | [] => .error (.json .truncated)
  | c :: rest =>
    if c = '\x7d' then .ok (.over rest)
    else if first then
      if c = '"' then .ok (.item rest) else .error (.json .malformed)
    else if c = ',' then
      match Json.skipSpace rest with
      | [] => .error (.json .truncated)
      | d :: behind => if d = '"' then .ok (.item behind) else .error (.json .malformed)
    else .error (.json .malformed)

/-- The elements of an array for the fields that are left, and its closing bracket. -/
def readElements (choices : Choices) (first : Bool) (fields : List Field) (text : Text) :
    Except Fault (Choices × Text) :=
  match fields with
  | [] => do
    let rest ← readMark ']' text
    return (choices, rest)
  | field :: fields => do
    match ← nextElement first text with
    | .over rest => return (choices, rest)
    | .item rest =>
      let (choices, rest) ← readField choices field rest
      readElements choices false fields rest

/-- The field of a key that has just been read, unless its choice has been made. -/
def fieldNamed (choices : Choices) (word : Text) : Except Fault Field :=
  match Field.ofKey? (String.ofList word) with
  | none => .error (.unknownField word)
  | some field => if choices.has field then .error (.repeatedField field) else .ok field

/-- One entry of an object, behind the opening quote of its key. -/
def readEntry (choices : Choices) (text : Text) : Except Fault (Choices × Text) := do
  let (word, rest) ← ofJson (Json.readString text)
  let field ← fieldNamed choices word
  let rest ← readMark ':' rest
  readField choices field rest

/-- Reading a field whose choice is open closes it. -/
theorem readField_openFields {choices result : Choices} {field : Field} {text rest : Text}
    (hopen : choices.has field = false) (h : readField choices field text = .ok (result, rest)) :
    result.openFields < choices.openFields := by
  have hmap : ∀ {α : Type} (f : α → Choices × Text) (reading : Except Fault α),
      reading.map f = .ok (result, rest) → ∃ value, f value = (result, rest) := by
    intro α f reading hr
    cases reading with
    | error fault => exact nomatch hr
    | ok value => exact ⟨value, Except.ok.inj hr⟩
  cases field <;> obtain ⟨value, hv⟩ := hmap _ _ h <;>
    simp only [Prod.mk.injEq] at hv <;> obtain ⟨rfl, _⟩ := hv <;>
    simp_all [Choices.openFields, Choices.has, Field.all, List.countP_cons]

/-- Only a field whose choice is open is accepted under its key. -/
theorem fieldNamed_open {choices : Choices} {word : Text} {field : Field}
    (h : fieldNamed choices word = .ok field) : choices.has field = false := by
  unfold fieldNamed at h
  split at h
  · exact nomatch h
  · split at h
    · exact nomatch h
    · next hopen =>
      cases h
      exact eq_false_of_ne_true hopen

/-- Reading an entry closes a choice. -/
theorem readEntry_openFields {choices result : Choices} {text rest : Text}
    (h : readEntry choices text = .ok (result, rest)) :
    result.openFields < choices.openFields := by
  unfold readEntry at h
  cases hword : ofJson (Json.readString text) with
  | error fault => rw [hword] at h; exact nomatch h
  | ok word =>
    rw [hword] at h
    cases hfield : fieldNamed choices word.1 with
    | error fault => simp only [bind, Except.bind, hfield, reduceCtorEq] at h
    | ok field =>
      cases hmark : readMark ':' word.2 with
      | error fault => simp only [bind, Except.bind, hfield, hmark, reduceCtorEq] at h
      | ok behind =>
        simp only [bind, Except.bind, hfield, hmark] at h
        exact readField_openFields (fieldNamed_open hfield) h

/-- The entries of an object that are left, and its closing brace. Every entry closes a choice, so
there are no more of them than fields. -/
def readEntries (choices : Choices) (first : Bool) (text : Text) :
    Except Fault (Choices × Text) :=
  match nextKey first text with
  | .error fault => .error fault
  | .ok (.over rest) => .ok (choices, rest)
  | .ok (.item rest) =>
    match _h : readEntry choices rest with
    | .error fault => .error fault
    | .ok (choices, rest) => readEntries choices false rest
termination_by choices.openFields
decreasing_by exact readEntry_openFields _h

/-- The choices of a document. -/
def readChoices (text : Text) : Except Fault (Choices × Text) :=
  match Json.skipSpace text with
  | [] => .error (.json .truncated)
  | c :: rest =>
    if c = '[' then readElements .none true Field.all rest
    else if c = '\x7b' then readEntries .none true rest
    else .error (refusal .settings (c :: rest))

/-- The choices of a document that holds nothing else. -/
def readDocument (text : Text) : Except Fault Choices := do
  let (choices, rest) ← readChoices text
  if (Json.skipSpace rest).isEmpty then return choices else throw (.json .malformed)

/-- The settings of a document: its choices over the standard settings. -/
def read (text : Text) : Except Fault Config :=
  (readDocument text).map Config.standard.override

end CodeTint.Config
