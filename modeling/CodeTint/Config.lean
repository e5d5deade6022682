import CodeTint.Scheme

/-!
# Settings of the markup

Three choices fix the markup: the scheme, the words in front of every class name, and the name of
the element around classified text.
-/

namespace CodeTint

/-- How text is categorized and wrapped. -/
structure Config where
  /-- How finely text is categorized. -/
  scheme : Scheme
  /-- Put in front of every class name. -/
  classPrefix : String
  /-- Name of the wrapping element. -/
  element : String
deriving DecidableEq, Repr

namespace Config

/-- The settings in force unless others are chosen. -/
def standard : Config :=
  ⟨.standard, "cpp-", "span"⟩

/-- Choices that may each be left open. -/
structure Choices where
  /-- The chosen scheme. -/
  scheme : Option Scheme
  /-- The chosen words in front of class names. -/
  classPrefix : Option String
  /-- The chosen element. -/
  element : Option String
deriving DecidableEq, Repr

/-- No choice has been made. -/
def Choices.none : Choices :=
  ⟨.none, .none, .none⟩

/-- Every choice that was made replaces the setting. -/
def override (config : Config) (choices : Choices) : Config where
  scheme := choices.scheme.getD config.scheme
  classPrefix := choices.classPrefix.getD config.classPrefix
  element := choices.element.getD config.element

/-- Without choices the settings stay. -/
@[simp] theorem override_none (config : Config) : config.override .none = config := rfl

end Config

end CodeTint
