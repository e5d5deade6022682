import CodeTint.Kind
import CodeTint.Scan.Attribute
import CodeTint.Scan.Comment
import CodeTint.Scan.Context
import CodeTint.Scan.Directive
import CodeTint.Scan.Number
import CodeTint.Scan.Quoted
import CodeTint.Scan.RawString
import CodeTint.Scan.Space
import CodeTint.Scan.Word

/-!
# The rules and their precedence

A rule looks at the text in front of it, and at the context behind it where that matters, and
either declines or answers with a kind and an extent. The rules are tried in a fixed order and the
first answer counts. Where no rule answers, one character is taken as ordinary text.
-/

namespace CodeTint.Scan

/-- A way to recognize the next token. -/
inductive Rule where
  /-- Runs of whitespace. -/
  | whitespace
  /-- Attributes in double brackets. -/
  | attributeSpec
  /-- Comments up to the end of the line. -/
  | lineComment
  /-- Comments between delimiters. -/
  | blockComment
  /-- Preprocessor directives. -/
  | directive
  /-- Raw string literals. -/
  | rawString
  /-- String literals. -/
  | string
  /-- Character literals. -/
  | character
  /-- Numeric literals. -/
  | number
  /-- Words, reserved or not. -/
  | word
deriving DecidableEq, Repr

/-- The answer of a rule. -/
structure Match where
  /-- What the taken text is. -/
  kind : Kind
  /-- How far it reaches. -/
  extent : Extent
deriving DecidableEq, Repr

namespace Rule

/-- All rules in order of precedence. -/
def all : List Rule :=
  [whitespace, attributeSpec, lineComment, blockComment, directive, rawString, string, character,
    number, word]

/-- The rules of a list that are in force, with or without attributes. -/
def inForce (attributes : Bool) (rules : List Rule) : List Rule :=
  rules.filter fun rule => attributes || rule ≠ attributeSpec

/-- With attributes every rule is in force. -/
@[simp] theorem inForce_true (rules : List Rule) : inForce true rules = rules := by
  simp [inForce]

/-- The name under which a rule is traced. -/
def name : Rule → String
  | whitespace => "whitespace"
  | attributeSpec => "attribute"
  | lineComment => "line-comment"
  | blockComment => "block-comment"
  | directive => "preprocessor"
  | rawString => "raw-string"
  | string => "string"
  | character => "char"
  | number => "number"
  | word => "identifier"

/-- What a rule recognizes at the start of the text. -/
def scan? (rule : Rule) (context : Context) (text : Text) : Option Match :=
  match rule with
  | whitespace => (Space.scan? text).map (⟨.whitespace, ·⟩)
  | attributeSpec => (Attribute.scan? text).map (⟨.attributeSpec, ·⟩)
  | lineComment => (Comment.line? text).map (⟨.lineComment, ·⟩)
  | blockComment => (Comment.block? text).map (⟨.blockComment, ·⟩)
  | directive => (Directive.scan? context.lineBlank text).map (⟨.directive, ·⟩)
  | rawString => (RawString.scan? text).map (⟨.rawString, ·⟩)
  | string => (Quoted.scan? '"' text).map (⟨.string, ·⟩)
  | character => (Quoted.scan? '\x27' text).map (⟨.character, ·⟩)
  | number =>
    if context.behindLetter then none
    else (Number.scan? text).map (⟨.number, ·⟩)
  | word => (Word.scan? text).map fun extent =>
      ⟨if Word.isReserved (text.take extent.length) then .keyword else .identifier, extent⟩

/-- The rule that produces tokens of a kind. -/
def ofKind? : Kind → Option Rule
  | .whitespace => some whitespace
  | .attributeSpec => some attributeSpec
  | .lineComment => some lineComment
  | .blockComment => some blockComment
  | .directive => some directive
  | .rawString => some rawString
  | .string => some string
  | .character => some character
  | .number => some number
  | .keyword | .identifier => some word
  | .other => none

/-- Whatever a rule recognizes fits the text in every context. -/
theorem scan?_fits {rule : Rule} {context : Context} {text : Text} {found : Match}
    (h : rule.scan? context text = some found) : found.extent.Fits text := by
  cases rule <;> simp only [scan?, Option.map_eq_some_iff] at h
  case whitespace => obtain ⟨extent, he, rfl⟩ := h; exact Space.scan?_fits he
  case attributeSpec => obtain ⟨extent, he, rfl⟩ := h; exact Attribute.scan?_fits he
  case lineComment => obtain ⟨extent, he, rfl⟩ := h; exact Comment.line?_fits he
  case blockComment => obtain ⟨extent, he, rfl⟩ := h; exact Comment.block?_fits he
  case directive => obtain ⟨extent, he, rfl⟩ := h; exact Directive.scan?_fits he
  case rawString => obtain ⟨extent, he, rfl⟩ := h; exact RawString.scan?_fits he
  case string => obtain ⟨extent, he, rfl⟩ := h; exact Quoted.scan?_fits he
  case character => obtain ⟨extent, he, rfl⟩ := h; exact Quoted.scan?_fits he
  case number =>
    split at h
    · exact nomatch h
    · simp only [Option.map_eq_some_iff] at h
      obtain ⟨extent, he, rfl⟩ := h
      exact Number.scan?_fits he
  case word => obtain ⟨extent, he, rfl⟩ := h; exact Word.scan?_fits he

/-- The rule recorded for a kind is the one that recognized it. -/
theorem ofKind?_scan? {rule : Rule} {context : Context} {text : Text} {found : Match}
    (h : rule.scan? context text = some found) : ofKind? found.kind = some rule := by
  cases rule <;> simp only [scan?, Option.map_eq_some_iff] at h
  case number =>
    split at h
    · exact nomatch h
    · simp only [Option.map_eq_some_iff] at h
      obtain ⟨extent, _, rfl⟩ := h
      rfl
  case word =>
    obtain ⟨extent, _, rfl⟩ := h
    dsimp only
    split <;> rfl
  all_goals
    obtain ⟨extent, _, rfl⟩ := h
    rfl

end Rule

/-- The first answer of a table of rules, with the rule that gave it. -/
def firstMatch? (table : List Rule) (context : Context) (text : Text) : Option (Rule × Match) :=
  table.findSome? fun rule => (rule.scan? context text).map (rule, ·)

/-- The answer in force where no rule answers: one character of ordinary text. -/
def Match.single : Match :=
  ⟨.other, .ended 1⟩

/-- The first answer fits the text. -/
theorem firstMatch?_fits {table : List Rule} {context : Context} {text : Text} {rule : Rule}
    {found : Match} (h : firstMatch? table context text = some (rule, found)) :
    found.extent.Fits text := by
  obtain ⟨rule', _, h'⟩ := List.exists_of_findSome?_eq_some h
  simp only [Option.map_eq_some_iff, Prod.mk.injEq] at h'
  obtain ⟨found', hfound, rfl, rfl⟩ := h'
  exact Rule.scan?_fits hfound

end CodeTint.Scan
