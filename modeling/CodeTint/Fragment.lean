import CodeTint.Scheme
import CodeTint.Token

/-!
# Fragments

A fragment is a piece of text under one category. Every token gives one fragment, and runs of
plain fragments are joined, so between two classified fragments there is at most one plain one.
-/

namespace CodeTint

/-- A piece of text and how it is shown. -/
structure Fragment where
  /-- How the text is shown. -/
  category : Category
  /-- The bytes of the text. -/
  span : Span
  /-- The text itself. -/
  text : Text
deriving DecidableEq, Repr

namespace Fragment

/-- The fragment has no class. -/
def isPlain (fragment : Fragment) : Bool :=
  fragment.category.isPlain

/-- A token under a scheme. -/
def ofToken (scheme : Scheme) (token : Token) : Fragment :=
  ⟨scheme.categorize token.kind, token.span, token.text⟩

/-- Two neighbours as one fragment of the first one's category. -/
def join (first last : Fragment) : Fragment :=
  ⟨first.category, first.span.cover last.span, first.text ++ last.text⟩

/-- A fragment in front of others, joined to the first of them when both are plain. -/
def mergeOnto (fragment : Fragment) : List Fragment → List Fragment
  | [] => [fragment]
  | next :: rest =>
    if fragment.isPlain && next.isPlain then fragment.join next :: rest
    else fragment :: next :: rest

/-- All fragments with plain neighbours joined. -/
def mergePlain (fragments : List Fragment) : List Fragment :=
  fragments.foldr mergeOnto []

/-- The fragments of a list of tokens. -/
def ofTokens (scheme : Scheme) (tokens : List Token) : List Fragment :=
  mergePlain (tokens.map (ofToken scheme))

/-- The text behind all fragments together. -/
def wholeText (fragments : List Fragment) : Text :=
  fragments.flatMap text

/-- Putting a fragment in front puts its text in front. -/
theorem wholeText_mergeOnto (fragment : Fragment) (fragments : List Fragment) :
    wholeText (fragment.mergeOnto fragments) = fragment.text ++ wholeText fragments := by
  unfold mergeOnto
  split
  · simp only [wholeText, List.flatMap_cons, List.flatMap_nil]
  · split
    · simp only [wholeText, List.flatMap_cons, join, List.append_assoc]
    · simp only [wholeText, List.flatMap_cons]

/-- Joining plain neighbours keeps the text. -/
theorem wholeText_mergePlain (fragments : List Fragment) :
    wholeText (mergePlain fragments) = wholeText fragments := by
  induction fragments with
  | nil => rfl
  | cons fragment fragments ih =>
    rw [mergePlain, List.foldr_cons, wholeText_mergeOnto, ← mergePlain, ih]
    simp only [wholeText, List.flatMap_cons]

/-- The fragments of a list of tokens hold the text of the tokens. -/
theorem wholeText_ofTokens (scheme : Scheme) (tokens : List Token) :
    wholeText (ofTokens scheme tokens) = tokens.flatMap Token.text := by
  rw [ofTokens, wholeText_mergePlain, wholeText, List.flatMap_map]
  rfl

end Fragment

end CodeTint
