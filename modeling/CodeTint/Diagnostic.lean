import CodeTint.Token

/-!
# Diagnostics

Scanning never fails. A diagnostic describes a construct that ran to the end of the text without
its closing delimiter; its code depends on the kind of the construct alone.
-/

namespace CodeTint

/-- How serious a diagnostic is. -/
inductive Severity where
  /-- The text can be processed all the same. -/
  | warning
deriving DecidableEq, Repr

namespace Severity

/-- The word for machines. -/
def name : Severity → String
  | warning => "warning"

/-- The word that opens a report. -/
def title : Severity → String
  | warning => "Warning"

end Severity

/-- A remark about a place in a text, or about the text as a whole. -/
structure Diagnostic where
  /-- How serious it is. -/
  severity : Severity
  /-- What is the matter. -/
  message : String
  /-- A short code for the matter. -/
  code : Option String
  /-- The place, when there is one. -/
  span : Option Span
deriving DecidableEq, Repr

namespace Diagnostic

/-- A warning without a code. -/
def warning (message : String) (span : Option Span) : Diagnostic :=
  ⟨.warning, message, none, span⟩

/-- The same remark under a code. -/
def withCode (diagnostic : Diagnostic) (code : String) : Diagnostic :=
  { diagnostic with code := some code }

/-- The code of an unclosed construct. -/
def unterminatedCode : Kind → String
  | .blockComment => "W0001"
  | .string => "W0002"
  | .character => "W0003"
  | .rawString => "W0004"
  | .attributeSpec => "W0005"
  | _ => "W0099"

/-- The words for an unclosed construct. -/
def constructName : Kind → String
  | .blockComment => "block comment"
  | .string => "string literal"
  | .character => "character literal"
  | .rawString => "raw string literal"
  | .attributeSpec => "attribute"
  | _ => "construct"

/-- The warning about a construct that never closes. -/
def unterminated (kind : Kind) (span : Span) : Diagnostic :=
  (warning ("Unterminated " ++ constructName kind) (some span)).withCode (unterminatedCode kind)

/-- The warning about a token, when its construct was not closed. -/
def ofToken? (token : Token) : Option Diagnostic :=
  if token.closed then none else some (unterminated token.kind token.span)

/-- The warnings about a list of tokens, in their order. -/
def ofTokens (tokens : List Token) : List Diagnostic :=
  tokens.filterMap ofToken?

end Diagnostic

end CodeTint
