import CodeTint.Highlight

/-!
# The trace of a run

A run can be followed event by event: it opens with the size of the text, every rule that answers
is named with the number of bytes it took, an unclosed construct is reported where it was found,
and the run ends with a count of its fragments.
-/

namespace CodeTint.Trace

open Scan

/-- Something that happens during a run. -/
inductive Event where
  /-- The run opens on a text of some bytes under a scheme. -/
  | opened (length : Nat) (scheme : Scheme)
  /-- A rule took some bytes. -/
  | matched (rule : Rule) (length : Nat)
  /-- A construct of a kind was not closed. -/
  | unterminated (kind : Kind) (start stop : Nat)
  /-- The run is over, with so many fragments and so many of them classified. -/
  | scanned (fragments classified : Nat)
deriving DecidableEq, Repr

/-- The event of a rule, none for a single ordinary character. -/
def ruleEvents (token : Token) : List Event :=
  match token.rule with
  | some rule => [.matched rule (Text.bytes token.text)]
  | none => []

/-- The event of an unclosed construct. -/
def openEvents (token : Token) : List Event :=
  if token.closed then [] else [.unterminated token.kind token.start token.stop]

/-- What happens while a list of tokens is found. -/
def ofTokens (tokens : List Token) : List Event :=
  tokens.flatMap fun token => ruleEvents token ++ openEvents token

/-- The last event of a run. -/
def closing (fragments : List Fragment) : Event :=
  .scanned fragments.length (fragments.countP (!·.isPlain))

/-- Everything that happens while a text is highlighted under a scheme. -/
def ofHighlight (scheme : Scheme) (text : Text) : List Event :=
  .opened (Text.bytes text) scheme ::
    ofTokens (scheme.tokens text) ++ [closing (classify scheme text).fragments]

end CodeTint.Trace
