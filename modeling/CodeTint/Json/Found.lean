import CodeTint.Decimal.Shortest
import CodeTint.Json.Number
import CodeTint.Json.Quoted
import CodeTint.Text.Visible

/-!
# What stands where something else was expected

Before a value of the wrong type is refused it is looked at: words, numbers and strings are read
to their end, so a fault inside them is reported instead, while arrays and objects are refused by
their first character.
-/

namespace CodeTint.Json

/-- A value seen where another type was expected. -/
inductive Found where
  /-- The word for nothing. -/
  | null
  /-- A truth value. -/
  | boolean (value : Bool)
  /-- A number. -/
  | number (value : Number)
  /-- A string. -/
  | string (value : Text)
  /-- An array, not looked into. -/
  | sequence
  /-- An object, not looked into. -/
  | map
deriving DecidableEq, Repr

namespace Found

/-- Floating-point numbers in messages: plain between `1e-5` and `1e16`, a whole number ends in
`.0`, and an exponent carries its sign. -/
def realStyle : Decimal.Style where
  leastPlain := -5
  greatestPlain := 15
  wholeTail := ".0".toList
  positiveMark := "e+".toList
  negativeMark := "e-".toList

/-- A word or number between grave accents. -/
def accented (word : Text) : Text :=
  ['\x60'] ++ word ++ ['\x60']

/-- A value in the words of a message. -/
def describe : Found → Text
  | null => "null".toList
  | boolean true => "boolean ".toList ++ accented "true".toList
  | boolean false => "boolean ".toList ++ accented "false".toList
  | number (.integer value) => "integer ".toList ++ accented (Text.signedDigits value)
  | number (.real bits) => "floating point ".toList ++ accented (realStyle.writeBits bits)
  | string value => "string ".toList ++ Text.visible value
  | sequence => "sequence".toList
  | map => "map".toList

/-- The value that stands in front of the text. -/
def read (text : Text) : Except Fault Found :=
  match text with
  | [] => .error .truncated
  | c :: rest =>
    if c = 'n' then (readWord "ull".toList rest).map fun _ => null
    else if c = 't' then (readWord "rue".toList rest).map fun _ => boolean true
    else if c = 'f' then (readWord "alse".toList rest).map fun _ => boolean false
    else if c = '"' then (readString rest).map fun result => string result.1
    else if c = '[' then .ok sequence
    else if c = '\x7b' then .ok map
    else if c = '-' || c.isDigit then (readNumber (c :: rest)).map fun result => number result.1
    else .error .malformed

end Found

end CodeTint.Json
