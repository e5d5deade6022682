import CodeTint.Text.Basic
import CodeTint.Text.Unprintable

/-!
# Text shown in a message

A text that a message quotes is put between double quotes so that every character can be told
apart: the quote and the backslash are escaped, four control characters have letters, and any
other character without a visible form is shown by its number.
-/

namespace CodeTint.Text

/-- The number of a character in lower-case hexadecimal, as an escape. -/
def showNumber (c : Char) : Text :=
  ['\\', 'u', '\x7b'] ++ Nat.toDigits 16 c.toNat ++ ['\x7d']

/-- What one character is shown as between quotes. -/
def showChar (c : Char) : Text :=
  if c = '\x00' then ['\\', '0']
  else if c = '\t' then ['\\', 't']
  else if c = '\r' then ['\\', 'r']
  else if c = '\n' then ['\\', 'n']
  else if c = '"' then ['\\', '"']
  else if c = '\\' then ['\\', '\\']
  else if isUnprintable c then showNumber c
  else [c]

/-- A text between quotes, every character visible. -/
def visible (text : Text) : Text :=
  ['"'] ++ text.flatMap showChar ++ ['"']

end CodeTint.Text
