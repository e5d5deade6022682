import CodeTint.Config.Field
import CodeTint.Json.Found

/-!
# Why settings are refused

A document can fail as JSON text, or it can be readable and yet say something that settings cannot
be: an unknown or repeated key, an unknown scheme, or a value of the wrong type. Only the second
sort has a message of its own.
-/

namespace CodeTint.Config

/-- What a place in the document calls for. -/
inductive Expected where
  /-- The settings as a whole. -/
  | settings
  /-- A string. -/
  | text
  /-- The empty content of a scheme. -/
  | nothing
deriving DecidableEq, Repr

/-- The words for what a place calls for. -/
def Expected.describe : Expected → Text
  | settings => "struct HighlightConfig".toList
  | text => "a string".toList
  | nothing => "unit".toList

/-- Why a document is refused as settings. -/
inductive Fault where
  /-- It cannot be read as JSON. -/
  | json (fault : Json.Fault)
  /-- A key belongs to no field. -/
  | unknownField (key : Text)
  /-- A key has been met before. -/
  | repeatedField (field : Field)
  /-- A name belongs to no scheme. -/
  | unknownScheme (word : Text)
  /-- A value is of another type than its place calls for. -/
  | wrongType (found : Json.Found) (expected : Expected)
deriving DecidableEq, Repr

namespace Fault

/-- A list of accented words. -/
def accentedList (words : List String) : Text :=
  (words.map fun word => Json.Found.accented word.toList).intersperse ", ".toList |>.flatten

/-- The message of a fault, none where the text as such could not be read. -/
def message? : Fault → Option Text
  | json _ => none
  | unknownField key => some <|
      "unknown field ".toList ++ Json.Found.accented key ++ ", expected one of ".toList ++
        accentedList (Field.all.map Field.key)
  | repeatedField field => some <|
      "duplicate field ".toList ++ Json.Found.accented field.key.toList
  | unknownScheme word => some <|
      "unknown variant ".toList ++ Json.Found.accented word ++ ", expected one of ".toList ++
        accentedList (Scheme.all.map Scheme.name)
  | wrongType found expected => some <|
      "invalid type: ".toList ++ found.describe ++ ", expected ".toList ++ expected.describe

/-- A text that could not be read has no message. -/
@[simp]
theorem message?_json (reason : Json.Fault) : (json reason).message? = none :=
  rfl

/-- Only a text that could not be read has no message. -/
theorem message?_eq_none_iff {fault : Fault} :
    fault.message? = none ↔ ∃ reason, fault = .json reason := by
  cases fault with
  | json reason => exact ⟨fun _ => ⟨reason, rfl⟩, fun _ => rfl⟩
  | _ =>
    constructor
    · intro h
      cases h
    · rintro ⟨reason, h⟩
      cases h

end Fault

end CodeTint.Config
