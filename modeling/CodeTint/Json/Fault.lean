import CodeTint.Text.Basic

/-!
# Faults of JSON text

A document is read from left to right, and the first place where it cannot be read on decides the
fault: either the text ended where more was needed, or something else stands there. Readers take
the text in front of them and answer with a value and the text behind it.
-/

namespace CodeTint.Json

/-- Why a text cannot be read on. -/
inductive Fault where
  /-- Something stands where it must not. -/
  | malformed
  /-- The text ended too early. -/
  | truncated
deriving DecidableEq, Repr

/-- A value and the text behind it, or the fault. -/
abbrev Reading (α : Type) :=
  Except Fault (α × Text)

/-- The blanks between the parts of a document. -/
def isSpace (c : Char) : Bool :=
  c = ' ' || c = '\t' || c = '\n' || c = '\r'

/-- The text behind the blanks in front of it. -/
def skipSpace (text : Text) : Text :=
  text.dropWhile isSpace

/-- The text behind a word that must stand here. -/
def readWord (word text : Text) : Except Fault Text :=
  match word, text with
  | [], rest => .ok rest
  | _ :: _, [] => .error .truncated
  | expected :: word, c :: rest =>
    if c = expected then readWord word rest else .error .malformed

end CodeTint.Json
