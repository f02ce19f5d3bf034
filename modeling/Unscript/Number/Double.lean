import Unscript.Number.Rounding

/-!
# Binary floating point numbers of eight and four bytes

A number is kept as its bit pattern, so two numbers are equal exactly when every bit is. A finite
pattern denotes a rational number, and a rational is written as the nearest pattern, a half going
to the even one.

* `Double.toRat` is the value of a finite number, `Double.ofRat` the nearest number to a value.
* `Double.widen` reads a four-byte pattern; `Double.narrow?` writes one and fails on a finite
  number that is too large for it.
-/

namespace Unscript.Number

-- Powers are those of `NatPow`, whichever other instances a proof brings into scope.
attribute [local instance (1100)] instPowNat

/-- An eight-byte floating point number, by its bits. -/
structure Double where
  bits : UInt64
  deriving DecidableEq, Inhabited, Repr

/-- The value of a finite number without its sign, as `mantissa * 2 ^ exponent`. -/
structure Binary where
  mantissa : Nat
  exponent : Int
  deriving DecidableEq, Repr

namespace Binary

/-- The number as a quotient of natural numbers. -/
def fraction (b : Binary) : Nat × Nat :=
  if 0 ≤ b.exponent then (b.mantissa * 2 ^ b.exponent.toNat, 1)
  else (b.mantissa, 2 ^ (-b.exponent).toNat)

/-- The number as a rational. -/
def toRat (b : Binary) : Rat :=
  mkRat b.fraction.1 b.fraction.2

/-- The largest `k` with `2 ^ k ≤ num / den`, for positive `num` and `den`. -/
def exponentOf (num den : Nat) : Int :=
  let k : Int := (Nat.log2 num : Int) - Nat.log2 den
  if den * 2 ^ k.toNat ≤ num * 2 ^ (-k).toNat then k else k - 1

/-- The pattern nearest to `num / den` in a format whose mantissas have `digits` binary digits and
whose least exponent is `least`; the sign bit is not set and a too large value carries into the
patterns above the finite ones. -/
def nearest (digits : Nat) (least : Int) (num den : Nat) : Nat :=
  if num = 0 then 0
  else
    let e := max (exponentOf num den - (digits - 1 : Nat)) least
    let m := roundDiv (num * 2 ^ (-e).toNat) (den * 2 ^ e.toNat)
    (e - least).toNat * 2 ^ (digits - 1) + m

end Binary

namespace Double

/-- Whether the sign bit is set. -/
def isNegative (d : Double) : Bool :=
  d.bits.toNat / 0x8000000000000000 == 1

/-- The eleven bits of the exponent. -/
def exponentField (d : Double) : Nat :=
  d.bits.toNat / 0x10000000000000 % 0x800

/-- The low bits of the mantissa. -/
def fractionField (d : Double) : Nat :=
  d.bits.toNat % 0x10000000000000

def isFinite (d : Double) : Bool :=
  d.exponentField != 2047

def isNaN (d : Double) : Bool :=
  d.exponentField == 2047 && d.fractionField != 0

def isInfinite (d : Double) : Bool :=
  d.exponentField == 2047 && d.fractionField == 0

/-- Whether the number is a zero of either sign. -/
def isZero (d : Double) : Bool :=
  d.exponentField == 0 && d.fractionField == 0

/-- The pattern with the given sign and low 63 bits. -/
def ofFields (negative : Bool) (magnitude : Nat) : Double :=
  ⟨UInt64.ofNat ((if negative then 0x8000000000000000 else 0) + magnitude)⟩

/-- The bits of positive infinity. -/
def infinityBits : Nat := 0x7ff0000000000000

/-- The quiet NaN without a payload. -/
def quietNaN (negative : Bool) : Double :=
  ofFields negative 0x7ff8000000000000

/-- The value without its sign, if the number is finite. -/
def magnitude (d : Double) : Binary :=
  if d.exponentField = 0 then ⟨d.fractionField, -1074⟩
  else ⟨0x10000000000000 + d.fractionField, (d.exponentField : Int) - 1075⟩

/-- The value of a finite number. -/
def toRat (d : Double) : Rat :=
  if d.isNegative then -d.magnitude.toRat else d.magnitude.toRat

/-- The number of a sign and the magnitude `num / den`; infinite when that is too large. -/
def ofFraction (negative : Bool) (num den : Nat) : Double :=
  ofFields negative (min (Binary.nearest 53 (-1074) num den) infinityBits)

/-- The number nearest to a rational; zero is the positive zero. -/
def ofRat (q : Rat) : Double :=
  ofFraction (q < 0) q.num.natAbs q.den

/-- Equality as numbers: the two zeros are equal and a NaN equals nothing. -/
def same (a b : Double) : Bool :=
  !a.isNaN && !b.isNaN && (a == b || (a.isZero && b.isZero))

/-- Whether the number stands above zero, infinities included. -/
def isPositive (d : Double) : Bool :=
  !d.isNaN && !d.isNegative && !d.isZero

/-- The number of a four-byte pattern; a NaN becomes quiet and keeps its payload. -/
def widen (bits : UInt32) : Double :=
  let n := bits.toNat
  let negative := n / 0x80000000 == 1
  let e : Nat := n / 0x800000 % 0x100
  let f : Nat := n % 0x800000
  if e = 255 then
    if f = 0 then ofFields negative infinityBits
    else ofFields negative (0x7ff8000000000000 + f % 0x400000 * 0x20000000)
  else
    let b : Binary := if e = 0 then ⟨f, -149⟩ else ⟨0x800000 + f, (e : Int) - 150⟩
    ofFraction negative b.fraction.1 b.fraction.2

/-- The four-byte pattern nearest to the number, unless a finite number is too large for one. -/
def narrow? (d : Double) : Option UInt32 :=
  let signed (m : Nat) := UInt32.ofNat ((if d.isNegative then 0x80000000 else 0) + m)
  if d.isNaN then some (signed (0x7fc00000 + d.fractionField / 0x20000000 % 0x400000))
  else if d.isInfinite then some (signed 0x7f800000)
  else
    let b := d.magnitude
    let m := Binary.nearest 24 (-149) b.fraction.1 b.fraction.2
    if m < 0x7f800000 then some (signed m) else none

/-- One half. -/
def half : Double := ofRat (1 / 2)

example : half.bits = 0x3fe0000000000000 := by decide +kernel
example : (widen 0x3dcccccd).bits = 0x3fb99999a0000000 := by decide +kernel

end Double

end Unscript.Number
