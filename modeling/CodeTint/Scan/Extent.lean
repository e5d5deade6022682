import CodeTint.Text.Basic

/-!
# How far a construct reaches

A scanner that accepts the text in front of it answers with an extent: the number of characters
it takes and whether the construct was closed. A construct that never closes takes all the text.
-/

namespace CodeTint.Scan

/-- Reach of a construct from its first character. -/
structure Extent where
  /-- Number of characters taken. -/
  length : Nat
  /-- The closing delimiter was found, or the construct needs none. -/
  closed : Bool
deriving DecidableEq, Repr

namespace Extent

/-- Reach of a construct that ended in time. -/
def ended (length : Nat) : Extent :=
  ⟨length, true⟩

/-- Reach of a construct that runs to the end of the text. -/
def openEnded (text : Text) : Extent :=
  ⟨text.length, false⟩

/-- An extent that fits the text: at least one character, none beyond the end, and all of the
text when the construct was not closed. -/
structure Fits (extent : Extent) (text : Text) : Prop where
  /-- At least one character is taken. -/
  positive : 0 < extent.length
  /-- No character beyond the end is taken. -/
  within : extent.length ≤ text.length
  /-- What was not closed takes everything. -/
  whole : extent.closed = false → extent.length = text.length

/-- A construct that ended in time fits when its length does. -/
theorem fits_ended {length : Nat} {text : Text} (hpos : 0 < length) (hle : length ≤ text.length) :
    (ended length).Fits text :=
  ⟨hpos, hle, nofun⟩

/-- A construct that runs to the end fits every nonempty text. -/
theorem fits_openEnded {text : Text} (hpos : 0 < text.length) : (openEnded text).Fits text :=
  ⟨hpos, Nat.le_refl _, fun _ => rfl⟩

end Extent

end CodeTint.Scan
