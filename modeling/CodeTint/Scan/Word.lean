import CodeTint.Scan.Extent
import CodeTint.Text.CharClass

/-!
# Words

A word is a letter or underscore followed by letters, digits and underscores. The reserved words
are listed once, in byte order, and a word is reserved only as a whole.
-/

namespace CodeTint.Scan.Word

/-- The reserved words in ascending order. -/
def reserved : List String :=
  [ "NULL", "alignas", "alignof", "auto", "bool", "break", "case", "catch", "char", "char16_t",
    "char32_t", "char8_t", "class", "co_await", "co_return", "co_yield", "concept", "const",
    "const_cast", "consteval", "constexpr", "constinit", "continue", "decltype", "default",
    "delete", "do", "double", "dynamic_cast", "else", "enum", "explicit", "export", "extern",
    "false", "final", "float", "for", "friend", "goto", "if", "import", "inline", "int", "long",
    "module", "mutable", "namespace", "new", "noexcept", "nullptr", "operator", "override",
    "private", "protected", "public", "register", "reinterpret_cast", "requires", "return",
    "short", "signed", "sizeof", "static", "static_assert", "static_cast", "struct", "switch",
    "template", "this", "thread_local", "throw", "true", "try", "typedef", "typeid", "typename",
    "union", "unsigned", "using", "virtual", "void", "volatile", "wchar_t", "while" ]

/-- A reserved word, spelled exactly. -/
def isReserved (word : Text) : Bool :=
  reserved.contains (String.ofList word)

/-- Reach of the word that starts the text. -/
def scan? (text : Text) : Option Extent :=
  match text with
  | c :: rest =>
    if Text.isWordStart c then some (.ended (Text.runLength Text.isWordPart rest + 1)) else none
  | [] => none

/-- A word fits the text it starts. -/
theorem scan?_fits {text : Text} {extent : Extent} (h : scan? text = some extent) :
    extent.Fits text := by
  simp only [scan?] at h
  split at h
  · next c rest =>
    split at h
    · simp only [Option.some.injEq] at h
      subst h
      have hr := Text.runLength_le Text.isWordPart rest
      exact Extent.fits_ended (by omega) (by simp only [List.length_cons]; omega)
    · exact nomatch h
  · exact nomatch h

end CodeTint.Scan.Word
