/-!
# Kinds of tokens

The kind of a token says what its text is to the language, before any decision about how it is
shown.
-/

namespace CodeTint

/-- What a token is to the language. -/
inductive Kind where
  /-- A run of whitespace. -/
  | whitespace
  /-- An attribute in double brackets. -/
  | attributeSpec
  /-- A comment up to the end of its line. -/
  | lineComment
  /-- A comment between delimiters. -/
  | blockComment
  /-- A preprocessor directive with its continuation lines. -/
  | directive
  /-- A string without escapes, between chosen delimiters. -/
  | rawString
  /-- A string literal. -/
  | string
  /-- A character literal. -/
  | character
  /-- A numeric literal. -/
  | number
  /-- A reserved word. -/
  | keyword
  /-- A word that is not reserved. -/
  | identifier
  /-- Any other single character. -/
  | other
deriving DecidableEq, Repr

namespace Kind

/-- All kinds in the order of their listing. -/
def all : List Kind :=
  [whitespace, attributeSpec, lineComment, blockComment, directive, rawString, string, character,
    number, keyword, identifier, other]

/-- The name under which a kind is reported. -/
def name : Kind → String
  | whitespace => "Whitespace"
  | attributeSpec => "Attribute"
  | lineComment => "LineComment"
  | blockComment => "BlockComment"
  | directive => "Preprocessor"
  | rawString => "RawString"
  | string => "String"
  | character => "Char"
  | number => "Number"
  | keyword => "Keyword"
  | identifier => "Ident"
  | other => "Other"

/-- The list of kinds is complete. -/
theorem mem_all (kind : Kind) : kind ∈ all := by
  cases kind <;> decide

end Kind

end CodeTint
