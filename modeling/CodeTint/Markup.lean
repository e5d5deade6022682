import CodeTint.Config
import CodeTint.Fragment

/-!
# Markup

Text is written with its three markup characters replaced by entities. A classified fragment is
wrapped in an element that carries its class; a plain one stands bare. Fragments are written one
after another with nothing between them.
-/

namespace CodeTint.Markup

/-- What one character is written as. -/
def escapeChar (c : Char) : Text :=
  if c = '&' then "&amp;".toList
  else if c = '<' then "&lt;".toList
  else if c = '>' then "&gt;".toList
  else [c]

/-- A text with its markup characters replaced by entities. -/
def escape (text : Text) : Text :=
  text.flatMap escapeChar

/-- The tag in front of a fragment of a class. -/
def openTag (config : Config) (className : String) : Text :=
  ['<'] ++ config.element.toList ++ " class=\"".toList ++ config.classPrefix.toList ++
    className.toList ++ "\">".toList

/-- The tag behind a classified fragment. -/
def closeTag (config : Config) : Text :=
  "</".toList ++ config.element.toList ++ ['>']

/-- One fragment in its tags, or bare when it is plain. -/
def renderFragment (config : Config) (fragment : Fragment) : Text :=
  match fragment.category.className? with
  | none => escape fragment.text
  | some className => openTag config className ++ escape fragment.text ++ closeTag config

/-- Fragments one after another. -/
def render (config : Config) (fragments : List Fragment) : Text :=
  fragments.flatMap (renderFragment config)

/-- Escaping goes piece by piece. -/
theorem escape_append (first last : Text) : escape (first ++ last) = escape first ++ escape last :=
  List.flatMap_append

/-- Rendering goes fragment by fragment. -/
theorem render_append (config : Config) (first last : List Fragment) :
    render config (first ++ last) = render config first ++ render config last :=
  List.flatMap_append

end CodeTint.Markup
