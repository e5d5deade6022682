import CodeTint.Config

/-!
# Fields of the settings

The settings are written and read field by field under fixed keys. While a document is read, the
fields met so far are kept as choices; each of them can be made once.
-/

namespace CodeTint.Config

/-- A field of the settings. -/
inductive Field where
  /-- How finely text is categorized. -/
  | scheme
  /-- Put in front of every class name. -/
  | classPrefix
  /-- Name of the wrapping element. -/
  | element
deriving DecidableEq, Repr

namespace Field

/-- All fields in the order in which they are written. -/
def all : List Field :=
  [scheme, classPrefix, element]

/-- The key under which a field is written. -/
def key : Field → String
  | scheme => "scheme"
  | classPrefix => "class_prefix"
  | element => "element"

/-- The field with a key. -/
def ofKey? (word : String) : Option Field :=
  all.find? fun field => field.key == word

/-- Each key leads back to its field. -/
theorem ofKey?_key (field : Field) : ofKey? field.key = some field := by
  cases field <;> decide

/-- Only the key of a field leads to it. -/
theorem key_of_ofKey? {word : String} {field : Field} (h : ofKey? word = some field) :
    field.key = word := by
  have hf := List.find?_some h
  exact eq_of_beq hf

end Field

namespace Choices

/-- The choice of a field has been made. -/
def has (choices : Choices) : Field → Bool
  | .scheme => choices.scheme.isSome
  | .classPrefix => choices.classPrefix.isSome
  | .element => choices.element.isSome

/-- Number of fields whose choice is still open. -/
def openFields (choices : Choices) : Nat :=
  Field.all.countP (!choices.has ·)

end Choices

end CodeTint.Config
