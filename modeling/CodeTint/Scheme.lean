import CodeTint.Category
import CodeTint.Kind

/-!
# Schemes

A scheme maps kinds to categories. The schemes agree on everything except literals and
attributes: one merges all literals, one tells strings from numbers, and one shows strings only
and does not know attributes.
-/

namespace CodeTint

/-- How finely text is categorized. -/
inductive Scheme where
  /-- Strings, characters and numbers are literals. -/
  | literal
  /-- Strings and numbers are told apart. -/
  | split
  /-- Strings only, without numbers and attributes. -/
  | stringOnly
deriving DecidableEq, Repr

namespace Scheme

/-- All schemes in the order of their listing. -/
def all : List Scheme :=
  [literal, split, stringOnly]

/-- The scheme in force unless another is chosen. -/
def standard : Scheme :=
  literal

/-- The name by which a scheme is chosen. -/
def name : Scheme → String
  | literal => "literal"
  | split => "split"
  | stringOnly => "string-only"

/-- The scheme with a name. -/
def ofName? (word : String) : Option Scheme :=
  all.find? fun scheme => scheme.name == word

/-- The complaint about a name that no scheme has. -/
def unknownMessage (name : String) : String :=
  "Unknown scheme: " ++ name ++ " (expected literal, split or string-only)"

/-- Attributes are recognized. -/
def attributes : Scheme → Bool
  | stringOnly => false
  | _ => true

/-- The category of a string or character literal. -/
def stringCategory : Scheme → Category
  | literal => .literal
  | split | stringOnly => .string

/-- The category of a numeric literal. -/
def numberCategory : Scheme → Category
  | literal => .literal
  | split => .number
  | stringOnly => .plain

/-- The category of a kind under a scheme. -/
def categorize (scheme : Scheme) : Kind → Category
  | .keyword => .keyword
  | .lineComment | .blockComment => .comment
  | .directive => .directive
  | .attributeSpec => .attributeSpec
  | .rawString | .string | .character => scheme.stringCategory
  | .number => scheme.numberCategory
  | .whitespace | .identifier | .other => .plain

/-- Each name leads back to its scheme. -/
theorem ofName?_name (scheme : Scheme) : ofName? scheme.name = some scheme := by
  cases scheme <;> decide

/-- Only the name of a scheme leads to it. -/
theorem name_of_ofName? {word : String} {scheme : Scheme} (h : ofName? word = some scheme) :
    scheme.name = word := by
  have hs := List.find?_some h
  exact eq_of_beq hs

end Scheme

end CodeTint
