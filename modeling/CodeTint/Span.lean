/-!
# Spans of bytes

A span is a pair of 32-bit byte offsets. Offsets of any size are accepted and keep their low 32
bits, so a span names the bytes it was made from exactly when both offsets are below
`UInt32.size`.
-/

namespace CodeTint

/-- A half-open range of byte offsets. -/
structure Span where
  /-- Offset of the first byte. -/
  start : UInt32
  /-- Offset behind the last byte. -/
  stop : UInt32
deriving DecidableEq, Repr

namespace Span

/-- The span between two offsets, each reduced to its low 32 bits. -/
def ofRange (start stop : Nat) : Span :=
  ⟨UInt32.ofNat start, UInt32.ofNat stop⟩

/-- The empty span at the first offset. -/
def zero : Span :=
  ⟨0, 0⟩

/-- Number of bytes covered, none when the ends are reversed. -/
def length (span : Span) : Nat :=
  span.stop.toNat - span.start.toNat

/-- No byte is covered. -/
def isEmpty (span : Span) : Bool :=
  span.length == 0

/-- The span from the start of one to the end of another. -/
def cover (first last : Span) : Span :=
  ⟨first.start, last.stop⟩

/-- The start keeps the low 32 bits of the offset it was made from. -/
theorem start_ofRange (start stop : Nat) : (ofRange start stop).start.toNat = start % UInt32.size :=
  UInt32.toNat_ofNat'

/-- The end keeps the low 32 bits of the offset it was made from. -/
theorem stop_ofRange (start stop : Nat) : (ofRange start stop).stop.toNat = stop % UInt32.size :=
  UInt32.toNat_ofNat'

/-- Offsets below the limit are kept. -/
theorem ofRange_exact {start stop : Nat} (hstart : start < UInt32.size)
    (hstop : stop < UInt32.size) :
    (ofRange start stop).start.toNat = start ∧ (ofRange start stop).stop.toNat = stop := by
  rw [start_ofRange, stop_ofRange, Nat.mod_eq_of_lt hstart, Nat.mod_eq_of_lt hstop]
  exact ⟨rfl, rfl⟩

/-- A span is empty exactly when its end does not lie behind its start. -/
theorem isEmpty_iff (span : Span) : span.isEmpty = true ↔ span.stop.toNat ≤ span.start.toNat := by
  simp only [isEmpty, length, beq_iff_eq, Nat.sub_eq_zero_iff_le]

/-- Covering two spans that meet is the span of the joined range. -/
theorem cover_ofRange (start middle stop : Nat) :
    cover (ofRange start middle) (ofRange middle stop) = ofRange start stop := rfl

end Span

end CodeTint
