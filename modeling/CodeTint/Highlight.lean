import CodeTint.Diagnostic
import CodeTint.Markup

/-!
# From text to markup

A text is scanned under the rules that its scheme calls for, its tokens become fragments and
warnings, and the fragments become markup.
-/

namespace CodeTint

/-- A text cut into fragments, with what was found wanting. -/
structure Classified where
  /-- The fragments in order, plain neighbours joined. -/
  fragments : List Fragment
  /-- The warnings in order. -/
  diagnostics : List Diagnostic
deriving DecidableEq, Repr

/-- The tokens of a text under the rules of a scheme. -/
def Scheme.tokens (scheme : Scheme) (text : Text) : List Token :=
  Token.lex scheme.attributes text

/-- A text cut into fragments under a scheme. -/
def classify (scheme : Scheme) (text : Text) : Classified :=
  let tokens := scheme.tokens text
  ⟨Fragment.ofTokens scheme tokens, Diagnostic.ofTokens tokens⟩

/-- The markup of a text under some settings. -/
def highlight (config : Config) (text : Text) : Text :=
  Markup.render config (classify config.scheme text).fragments

end CodeTint
