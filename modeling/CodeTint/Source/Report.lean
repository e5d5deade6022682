import CodeTint.Diagnostic
import CodeTint.Source.Lines

/-!
# Reports

A diagnostic is shown with the place it is about, counted from one, followed by the line that
holds it and a caret under the place. A diagnostic without a place is shown as its first line only.
Places are counted in words of 32 bits: the greatest number of lines or columns in front of a place
has no successor there, and where sums are not checked the count starts again at zero.
-/

namespace CodeTint.Source

/-- A text under a name. -/
structure File where
  /-- The name that reports show. -/
  name : String
  /-- The text. -/
  text : Text
deriving DecidableEq, Repr

/-- What stands in front of every line shown from a source. -/
def margin : Text :=
  "  | ".toList

/-- The code of a diagnostic in brackets, nothing without one. -/
def codeLabel (diagnostic : Diagnostic) : Text :=
  match diagnostic.code with
  | some code => " [".toList ++ code.toList ++ [']']
  | none => []

/-- The severity with the code. -/
def severityLabel (diagnostic : Diagnostic) : Text :=
  diagnostic.severity.title.toList ++ codeLabel diagnostic

/-- The name of the source and the message. -/
def messageLabel (file : File) (diagnostic : Diagnostic) : Text :=
  file.name.toList ++ ": ".toList ++ diagnostic.message.toList

/-- A number of lines or columns in front of a place, counted on to the place. -/
def countOn (before : Nat) : UInt32 :=
  UInt32.ofNat before + 1

/-- The number of a place is a remainder. -/
theorem toNat_countOn (before : Nat) : (countOn before).toNat = (before + 1) % UInt32.size := by
  rw [countOn, UInt32.toNat_add, UInt32.toNat_ofNat', UInt32.toNat_one, Nat.mod_add_mod]

/-- A place counted from one. -/
def positionLabel (position : Position) : Text :=
  Text.digits (countOn position.line).toNat ++ [':'] ++
    Text.digits (countOn position.column).toNat

/-- The source line in the margin, and below it a caret in a column. -/
def excerpt (line : Text) (column : Nat) : Text :=
  margin ++ line ++ ['\n'] ++ margin ++ List.replicate column ' ' ++ ['^']

/-- A diagnostic about a source, ready to be shown. -/
def report (file : File) (diagnostic : Diagnostic) : Text :=
  match diagnostic.span with
  | none =>
    severityLabel diagnostic ++ ": ".toList ++ messageLabel file diagnostic
  | some span =>
    let lines := Source.lines file.text
    let offset := span.start.toNat
    let position := locate lines offset
    severityLabel diagnostic ++ [':'] ++ positionLabel position ++ ": ".toList ++
      messageLabel file diagnostic ++ ['\n'] ++
      excerpt (lineAt lines offset).text position.column

end CodeTint.Source
