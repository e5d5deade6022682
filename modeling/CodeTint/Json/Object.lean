import CodeTint.Json.Quoted

/-!
# Objects in JSON

An object is written without blanks, its entries in the order given.
-/

namespace CodeTint.Json

/-- One entry with a value that has been written already. -/
def writeEntry (entry : String × Text) : Text :=
  writeString entry.1.toList ++ [':'] ++ entry.2

/-- An object with values that have been written already. -/
def writeObject (entries : List (String × Text)) : Text :=
  ['\x7b'] ++ ((entries.map writeEntry).intersperse [',']).flatten ++ ['\x7d']

/-- The word for a value that is not there. -/
def writeNull : Text :=
  "null".toList

/-- A string between quotes. -/
def writeWord (word : String) : Text :=
  writeString word.toList

end CodeTint.Json
