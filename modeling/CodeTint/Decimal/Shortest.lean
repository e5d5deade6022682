/-!
# Shortest decimals

A binary floating-point number stands for all reals that round to it. Its decimal form is the one
with the fewest digits among the decimals in that interval, the nearest of those, and of two
equally near ones the even one. Everything here is exact arithmetic on natural numbers: a power of
two or ten with a negative exponent is multiplied to the other side of the comparison.
-/

namespace CodeTint.Decimal

/-- A positive number `mantissa * 2 ^ exponent`. -/
structure Binary where
  /-- The integer part of the product. -/
  mantissa : Nat
  /-- The power of two. -/
  exponent : Int
deriving DecidableEq, Repr

/-- A positive number `digits * 10 ^ exponent`. -/
structure Scaled where
  /-- The digits as one number. -/
  digits : Nat
  /-- The power of ten. -/
  exponent : Int
deriving DecidableEq, Repr

/-- The least mantissa of a number that is not close to zero. -/
def fullMantissa : Nat :=
  0x10000000000000

/-- The magnitude of a 64-bit floating-point pattern; zero has mantissa zero. -/
def Binary.ofBits (bits : UInt64) : Binary :=
  let fraction := bits.toNat % fullMantissa
  let power := bits.toNat / fullMantissa % 0x800
  if power = 0 then ⟨fraction, -1074⟩ else ⟨fraction + fullMantissa, Int.ofNat power - 1075⟩

/-- The sign bit of a 64-bit floating-point pattern is set. -/
def isNegative (bits : UInt64) : Bool :=
  0x8000000000000000 ≤ bits.toNat

/-- The number, and both ends of the interval that rounds to it, in quarters of its last place. -/
structure Interval where
  /-- The lower end. -/
  low : Nat
  /-- The number itself. -/
  value : Nat
  /-- The upper end. -/
  high : Nat
  /-- The ends themselves round to the number. -/
  closed : Bool

/-- The interval of a number. Below a power of two the neighbour is twice as near. -/
def Binary.interval (x : Binary) : Interval :=
  let below := if x.mantissa = fullMantissa ∧ -1074 < x.exponent then 1 else 2
  ⟨4 * x.mantissa - below, 4 * x.mantissa, 4 * x.mantissa + 2, x.mantissa % 2 = 0⟩

/-- The nearest of the two multiples of `10 ^ power` around the number that lies in its interval,
when one of them does. -/
def Binary.onGrid? (x : Binary) (power : Int) : Option Nat :=
  let interval := x.interval
  let twos := x.exponent - 2
  let scale := Nat.pow 2 twos.toNat * Nat.pow 10 (-power).toNat
  let unit := Nat.pow 10 power.toNat * Nat.pow 2 (-twos).toNat
  let value := interval.value * scale
  let inside (n : Nat) : Bool :=
    if interval.closed then
      interval.low * scale ≤ n * unit && n * unit ≤ interval.high * scale
    else interval.low * scale < n * unit && n * unit < interval.high * scale
  let down := value / unit
  let up := down + 1
  let downFirst :=
    value - down * unit < up * unit - value ||
      (value - down * unit = up * unit - value && down % 2 = 0)
  let nearest := if downFirst then down else up
  let other := if downFirst then up else down
  if inside nearest then some nearest
  else if inside other then some other
  else none

/-- Powers of ten from the largest that a 64-bit number can need down to the smallest. -/
def powers : List Int :=
  (List.range 660).map fun (n : Nat) => 309 - (n : Int)

/-- The shortest decimal of a positive number: the coarsest grid that meets its interval. -/
def Binary.shortest (x : Binary) : Scaled :=
  (powers.findSome? fun power => (x.onGrid? power).map fun digits => ⟨digits, power⟩).getD ⟨0, 0⟩

/-- Choices that a way of writing decimals makes. -/
structure Style where
  /-- Least exponent of the first digit that is written without an exponent. -/
  leastPlain : Int
  /-- Greatest exponent of the first digit that is written without an exponent. -/
  greatestPlain : Int
  /-- What stands behind a whole number. -/
  wholeTail : List Char
  /-- What stands before an exponent that is not negative. -/
  positiveMark : List Char
  /-- What stands before the digits of a negative exponent. -/
  negativeMark : List Char

/-- Digits with a point behind the first `whole` of them, filled up with zeros. -/
def Style.plain (style : Style) (digits : List Char) (whole : Int) : List Char :=
  if whole ≤ 0 then "0.".toList ++ List.replicate (-whole).toNat '0' ++ digits
  else if (digits.length : Int) ≤ whole then
    digits ++ List.replicate (whole.toNat - digits.length) '0' ++ style.wholeTail
  else digits.take whole.toNat ++ ['.'] ++ digits.drop whole.toNat

/-- Digits with a point behind the first of them and an exponent. -/
def Style.scientific (style : Style) (digits : List Char) (exponent : Int) : List Char :=
  let mark := if exponent < 0 then style.negativeMark else style.positiveMark
  let fraction := digits.drop 1
  digits.take 1 ++ (if fraction.isEmpty then [] else '.' :: fraction) ++ mark ++
    Nat.toDigits 10 exponent.natAbs

/-- The text of a positive decimal. -/
def Style.write (style : Style) (x : Scaled) : List Char :=
  let digits := Nat.toDigits 10 x.digits
  let exponent := x.exponent + digits.length - 1
  if style.leastPlain ≤ exponent ∧ exponent ≤ style.greatestPlain then
    style.plain digits (exponent + 1)
  else style.scientific digits exponent

/-- The text of a finite 64-bit floating-point pattern. -/
def Style.writeBits (style : Style) (bits : UInt64) : List Char :=
  let x := Binary.ofBits bits
  let sign := if isNegative bits then ['-'] else []
  if x.mantissa = 0 then sign ++ '0' :: style.wholeTail
  else sign ++ style.write x.shortest

end CodeTint.Decimal
