import CodeTint.Text.Basic
import CodeTint.Text.CharClass

/-!
# What lies behind the scanner

Two facts about the text already taken decide how the rest is scanned: whether the current line
holds only blanks so far, and the character taken last. Both are kept up to date one character
at a time, so a context depends on the text behind it and not on how it was cut into tokens.
-/

namespace CodeTint.Scan

/-- Facts about the text already taken. -/
structure Context where
  /-- Only blanks since the last newline or the start. -/
  lineBlank : Bool
  /-- The character taken last. -/
  previous : Option Char
deriving DecidableEq, Repr

namespace Context

/-- Nothing has been taken. -/
def start : Context :=
  ⟨true, none⟩

/-- The context behind one more character. -/
def push (context : Context) (c : Char) : Context :=
  ⟨c = '\n' || (context.lineBlank && Text.isBlank c), some c⟩

/-- The context behind more text. -/
def after (context : Context) (text : Text) : Context :=
  text.foldl push context

/-- Text taken in two pieces leaves the context of the whole. -/
theorem after_append (context : Context) (first last : Text) :
    context.after (first ++ last) = (context.after first).after last :=
  List.foldl_append

/-- The character taken last is a letter or an underscore. -/
def behindLetter (context : Context) : Bool :=
  context.previous.any Text.isWordStart

end Context

end CodeTint.Scan
