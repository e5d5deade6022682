import CodeTint.Json.Fault

/-!
# Numbers in JSON

A number without fraction and exponent stays an integer as long as it fits into 64 bits. All other
numbers become floating-point ones: the leading digits that fit into 64 bits are kept, the digits
behind them only move the point, and the kept digits are scaled by a power of ten in one
floating-point operation. A number beyond the largest finite one is malformed.
-/

namespace CodeTint.Json

/-- A number as it is understood. -/
inductive Number where
  /-- A whole number in the range of 64 bits. -/
  | integer (value : Int)
  /-- A floating-point number, as its 64-bit pattern. -/
  | real (bits : UInt64)
deriving DecidableEq, Repr

/-- The value of a decimal digit. -/
def digitValue (c : Char) : Nat :=
  c.toNat - 48

/-- Digits kept so far, how many, and the text behind them. -/
structure Kept where
  /-- The digits as one number below `UInt64.size`. -/
  value : Nat
  /-- Number of digits. -/
  count : Nat
  /-- The text behind the digits. -/
  rest : Text

/-- More digits behind those kept, up to the first that does not fit into 64 bits. -/
def keepDigits (value count : Nat) (text : Text) : Kept :=
  match text with
  | [] => ⟨value, count, []⟩
  | c :: rest =>
    if c.isDigit ∧ value * 10 + digitValue c < UInt64.size then
      keepDigits (value * 10 + digitValue c) (count + 1) rest
    else ⟨value, count, c :: rest⟩

/-- The greatest power of ten that one step can scale by. -/
def stepLimit : Nat :=
  308

/-- A number below `UInt64.size` scaled down by a positive power of ten in steps of at most
`stepLimit`. Four steps leave nothing of any such number, so no more are taken. -/
def scaleDown (value : Float) (power : Nat) : Float :=
  let steps := (power - 1) / stepLimit
  let reduced := Nat.repeat (· / Float.ofScientific 1 false stepLimit) (min steps 4) value
  reduced / Float.ofScientific 1 false (power - steps * stepLimit)

/-- A number scaled by a power of ten, nothing beyond the largest finite one. -/
def scale? (value : Float) (power : Int) : Option Float :=
  if power < 0 then some (scaleDown value power.natAbs)
  else if (stepLimit : Int) < power then
    if value == 0 then some value else none
  else
    let scaled := value * Float.ofScientific 1 false power.natAbs
    if scaled.isInf then none else some scaled

/-- The number of kept digits and a power of ten, under a sign. -/
def realOf (negative : Bool) (digits : Nat) (power : Int) : Except Fault Number :=
  match scale? (UInt64.ofNat digits).toFloat power with
  | some value => .ok (.real (if negative then -value else value).toBits)
  | none => .error .malformed

/-- The sign of an exponent and the text behind it. -/
def readSign (text : Text) : Bool × Text :=
  match text with
  | '+' :: rest => (false, rest)
  | '-' :: rest => (true, rest)
  | rest => (false, rest)

/-- The greatest exponent that is counted exactly. -/
def exponentLimit : Nat :=
  0x7FFFFFFF

/-- The rest of a number from behind its exponent letter. -/
def readExponent (negative : Bool) (digits : Nat) (power : Int) (text : Text) : Reading Number :=
  let (down, rest) := readSign text
  match rest with
  | [] => .error .truncated
  | c :: _ =>
    if !c.isDigit then .error .malformed
    else
      let exponent := (rest.takeWhile Char.isDigit).foldl (fun n c => n * 10 + digitValue c) 0
      let behind := rest.dropWhile Char.isDigit
      if exponentLimit < exponent then
        if digits ≠ 0 ∧ !down then .error .malformed
        else .ok (.real (if negative then -0.0 else 0.0 : Float).toBits, behind)
      else
        match realOf negative digits (if down then power - exponent else power + exponent) with
        | .ok number => .ok (number, behind)
        | .error fault => .error fault

/-- The rest of a number that may still have an exponent. -/
def readTail (negative : Bool) (digits : Nat) (power : Int) (text : Text) : Reading Number :=
  let scaled := match realOf negative digits power with
    | .ok number => .ok (number, text)
    | .error fault => .error fault
  match text with
  | c :: rest => if c = 'e' || c = 'E' then readExponent negative digits power rest else scaled
  | [] => scaled

/-- The rest of a number from behind its point, which at least one digit must follow. -/
def readFraction (negative : Bool) (digits : Nat) (power : Int) (text : Text) : Reading Number :=
  let kept := keepDigits digits 0 text
  let behind := kept.rest.dropWhile Char.isDigit
  if (text.takeWhile Char.isDigit).isEmpty then
    .error (if text.isEmpty then .truncated else .malformed)
  else readTail negative kept.value (power - kept.count) behind

/-- The greatest whole number that can stand below zero. -/
def negativeLimit : Nat :=
  0x8000000000000000

/-- The number of a whole part that nothing follows. Below zero, zero itself and what lies under
the 64-bit range become floating-point numbers. -/
def wholeNumber (negative : Bool) (digits : Nat) : Number :=
  if negative then
    if digits = 0 ∨ negativeLimit < digits then .real (-(UInt64.ofNat digits).toFloat).toBits
    else .integer (-digits)
  else .integer digits

/-- The rest of a number from behind its whole part, with the digits of the whole part that were
kept and the number of those that were not. -/
def readWholeTail (negative : Bool) (digits dropped : Nat) (text : Text) : Reading Number :=
  match text with
  | '.' :: rest => readFraction negative digits dropped rest
  | c :: _ =>
    if c = 'e' || c = 'E' || 0 < dropped then readTail negative digits dropped text
    else .ok (wholeNumber negative digits, text)
  | [] =>
    if 0 < dropped then readTail negative digits dropped text
    else .ok (wholeNumber negative digits, text)

/-- A number behind its sign. A leading zero stands alone. -/
def readMagnitude (negative : Bool) (text : Text) : Reading Number :=
  match text with
  | [] => .error .truncated
  | '0' :: rest =>
    if rest.head?.any Char.isDigit then .error .malformed
    else readWholeTail negative 0 0 rest
  | c :: rest =>
    if !c.isDigit then .error .malformed
    else
      let kept := keepDigits (digitValue c) 1 rest
      readWholeTail negative kept.value (kept.rest.takeWhile Char.isDigit).length
        (kept.rest.dropWhile Char.isDigit)

/-- The number in front of the text. -/
def readNumber (text : Text) : Reading Number :=
  match text with
  | '-' :: rest => readMagnitude true rest
  | _ => readMagnitude false text

end CodeTint.Json
