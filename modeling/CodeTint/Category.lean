/-!
# Categories

A category says how a piece of text is shown. Every category but the plain one has a class name.
-/

namespace CodeTint

/-- How a piece of text is shown. -/
inductive Category where
  /-- Reserved words. -/
  | keyword
  /-- Strings, characters and numbers where they are not told apart. -/
  | literal
  /-- Strings and characters. -/
  | string
  /-- Numbers. -/
  | number
  /-- Preprocessor directives. -/
  | directive
  /-- Comments. -/
  | comment
  /-- Attributes. -/
  | attributeSpec
  /-- Text without a class, shown bare. -/
  | plain
deriving DecidableEq, Repr

namespace Category

/-- All categories in the order of their listing. -/
def all : List Category :=
  [keyword, literal, string, number, directive, comment, attributeSpec, plain]

/-- The class of a category, none for plain text. -/
def className? : Category → Option String
  | keyword => some "keyword"
  | literal => some "literal"
  | string => some "string"
  | number => some "number"
  | directive => some "preprocessor"
  | comment => some "comment"
  | attributeSpec => some "attribute"
  | plain => none

/-- The category without a class. -/
def isPlain (category : Category) : Bool :=
  category = plain

/-- The name under which a category is reported. -/
def name (category : Category) : String :=
  category.className?.getD "plain"

/-- The list of categories is complete. -/
theorem mem_all (category : Category) : category ∈ all := by
  cases category <;> decide

/-- Plain text is exactly what has no class. -/
theorem className?_eq_none_iff (category : Category) :
    category.className? = none ↔ category.isPlain = true := by
  cases category <;> decide

end Category

end CodeTint
