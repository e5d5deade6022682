import CodeTint.Text.Basic

/-!
# Lines of a source

A source is cut at its newlines once, and every line keeps the byte offset at which it starts.
An offset is then found by halving: the line that holds it is the last one that starts at or
before it. The column counts the characters of that line which end at or before the offset, so an
offset inside a character counts as the start of that character, and one behind the end of the
text counts as its end.
-/

namespace CodeTint.Source

/-- A line without its newline. -/
structure Line where
  /-- Number of bytes before the line. -/
  start : Nat
  /-- The characters of the line. -/
  text : Text
deriving DecidableEq, Repr

/-- A place in a source, counted from zero. -/
structure Position where
  /-- Number of lines before the place. -/
  line : Nat
  /-- Number of characters before the place on its line. -/
  column : Nat
deriving DecidableEq, Repr

/-- The pieces of a text that has one more character in front. -/
def pushPiece (c : Char) (pieces : List Text) : List Text :=
  if c = '\n' then [] :: pieces
  else
    match pieces with
    | [] => [[c]]
    | piece :: rest => (c :: piece) :: rest

/-- The pieces of a text between its newlines, at least one. -/
def pieces (text : Text) : List Text :=
  text.foldr pushPiece [[]]

/-- Lines placed one behind the other, with the offset at which the next one starts. -/
structure Placed where
  /-- The lines so far. -/
  lines : Array Line
  /-- Start of the next line. -/
  next : Nat

/-- One more line behind those placed. -/
def Placed.push (placed : Placed) (text : Text) : Placed :=
  ⟨placed.lines.push ⟨placed.next, text⟩, placed.next + Text.bytes text + 1⟩

/-- The lines of a text, each with its start. -/
def lines (text : Text) : Array Line :=
  ((pieces text).foldl Placed.push ⟨#[], 0⟩).lines

/-- The last line from `low` on and before `high` that starts at or before an offset, when the
line at `low` does. -/
def search (lines : Array Line) (offset low high : Nat) : Nat :=
  if high ≤ low + 1 then low
  else
    let middle := (low + high) / 2
    match lines[middle]? with
    | none => low
    | some line =>
      if line.start ≤ offset then search lines offset middle high
      else search lines offset low middle
termination_by high - low

/-- Number of the line that holds an offset. -/
def lineNumber (lines : Array Line) (offset : Nat) : Nat :=
  search lines offset 0 lines.size

/-- The line that holds an offset. -/
def lineAt (lines : Array Line) (offset : Nat) : Line :=
  lines[lineNumber lines offset]?.getD ⟨0, []⟩

/-- The place of an offset. -/
def locate (lines : Array Line) (offset : Nat) : Position :=
  let line := lineAt lines offset
  ⟨lineNumber lines offset, Text.fitLength (offset - line.start) line.text⟩

end CodeTint.Source
