import Unscript.Number.Double

/-!
# Decimal text of floating point numbers

A number is shown by the fewest digits that read back as the same number, the nearest to it of
those. It is written positionally while its exponent is from -4 to 15 and with an exponent
otherwise. Where a fixed count of places is asked for, the exact value is rounded once, a half
going to the even neighbour.

* `Double.shortest` chooses the digits and `Double.text` lays them out.
* `Double.fixed` writes a fixed count of places and `Double.roundPlaces` rounds to them.
-/

namespace Unscript.Number

-- Powers are those of `NatPow`, whichever other instances a proof brings into scope.
attribute [local instance (1100)] instPowNat

/-- The value `digits * 10 ^ exponent` of a numeral. -/
structure Decimal where
  digits : Nat
  exponent : Int
  deriving DecidableEq, Repr

namespace Decimal

/-- Drops zeros at the end of the digits; `fuel` bounds their count. -/
def trimZeros : Nat → Decimal → Decimal
  | 0, d => d
  | fuel + 1, d =>
    if d.digits ≠ 0 ∧ d.digits % 10 = 0 then trimZeros fuel ⟨d.digits / 10, d.exponent + 1⟩ else d

/-- The largest `k` with `10 ^ k ≤ num / den`, for positive `num` and `den`, searched upward from a
lower bound `k`. -/
def exponentFrom : Nat → Int → Nat → Nat → Int
  | 0, k, _, _ => k
  | fuel + 1, k, num, den =>
    let k' := k + 1
    if den * 10 ^ k'.toNat ≤ num * 10 ^ (-k').toNat then exponentFrom fuel k' num den else k

/-- The largest `k` with `10 ^ k ≤ num / den`. -/
def exponentOf (num den : Nat) : Int :=
  let b := Binary.exponentOf num den
  exponentFrom 4 (Int.fdiv (b * 30103) 100000 - 2) num den

end Decimal

/-- The rationals that round to a number, as quotients over one denominator: `low / den` to
`high / den`, around `value / den`. The ends belong to it when `closed`. -/
structure RoundingInterval where
  low : Nat
  value : Nat
  high : Nat
  den : Nat
  closed : Bool

namespace RoundingInterval

/-- The interval of a finite positive number. -/
def ofDouble (d : Double) : RoundingInterval :=
  let b := d.magnitude
  let v := 4 * b.mantissa
  let below := if d.fractionField = 0 ∧ 1 < d.exponentField then 1 else 2
  let e := b.exponent - 2
  let scale := 2 ^ e.toNat
  ⟨(v - below) * scale, v * scale, (v + 2) * scale, 2 ^ (-e).toNat, b.mantissa % 2 == 0⟩

/-- Whether `num / den` lies in the interval, for the interval's denominator times `k`. -/
def contains (i : RoundingInterval) (k num : Nat) : Bool :=
  if i.closed then i.low * k ≤ num && num ≤ i.high * k
  else i.low * k < num && num < i.high * k

/-- The nearest point of the grid of multiples of `10 ^ p` that lies in the interval, if any. -/
def onGrid? (i : RoundingInterval) (p : Int) : Option Nat :=
  let up := 10 ^ p.toNat
  let down := 10 ^ (-p).toNat
  let unit := i.den * up
  let below := i.value * down / unit
  let inside (n : Nat) := i.contains down (n * unit)
  let nearest := roundDiv (i.value * down) unit
  let other := if nearest = below then below + 1 else below
  if inside nearest then some nearest
  else if inside other then some other
  else none

/-- The first grid, from one digit on, with a point in the interval. -/
def fewest (i : RoundingInterval) (top : Int) : Nat → Int → Decimal
  | 0, p => ⟨roundDiv (i.value * 10 ^ (-p).toNat) (i.den * 10 ^ p.toNat), p⟩
  | fuel + 1, p =>
    match i.onGrid? p with
    | some n => ⟨n, p⟩
    | none => i.fewest top fuel (p - 1)

end RoundingInterval

/-- How a numeral is laid out: the exponents written positionally, the least count of digits of a
written exponent, and the words for numbers that are not finite. -/
structure Layout where
  leastPositional : Int
  mostPositional : Int
  exponentDigits : Nat
  infinity : String
  nan : String

namespace Layout

/-- Positional from `0.0001` up to sixteen digits before the point. -/
def standard : Layout := ⟨-4, 15, 2, "inf", "nan"⟩

/-- The layout of a JSON document. -/
def json : Layout := { standard with infinity := "Infinity", nan := "NaN" }

/-- The digits of a number in base ten. -/
def digitsOf (n : Nat) : List Char :=
  Nat.toDigits 10 n

/-- Lays out positive digits: `cs` are the digits and `e` the exponent of the first. -/
def digits (l : Layout) (cs : List Char) (e : Int) : List Char :=
  if l.leastPositional ≤ e ∧ e ≤ l.mostPositional then
    if e < 0 then
      '0' :: '.' :: List.replicate ((-e).toNat - 1) '0' ++ cs
    else
      let whole := e.toNat + 1
      if cs.length ≤ whole then cs ++ List.replicate (whole - cs.length) '0' ++ ['.', '0']
      else cs.take whole ++ '.' :: cs.drop whole
  else
    let mantissa := match cs with
      | [] => []
      | [c] => [c]
      | c :: rest => c :: '.' :: rest
    let ds := digitsOf e.natAbs
    mantissa ++ 'e' :: (if e < 0 then '-' else '+') ::
      List.replicate (l.exponentDigits - ds.length) '0' ++ ds

end Layout

namespace Double

/-- The fewest digits that read back as the finite positive number. -/
def shortest (d : Double) : Decimal :=
  let i := RoundingInterval.ofDouble d
  let top := Decimal.exponentOf i.value i.den
  Decimal.trimZeros 20 (i.fewest top 17 top)

/-- The text of the number in a layout. -/
def textIn (l : Layout) (d : Double) : String :=
  if d.isNaN then l.nan
  else
    let sign := if d.isNegative then "-" else ""
    if d.isInfinite then sign ++ l.infinity
    else if d.isZero then sign ++ "0.0"
    else
      let n := d.shortest
      let cs := Layout.digitsOf n.digits
      sign ++ String.ofList (l.digits cs (n.exponent + cs.length - 1))

/-- The text of the number: `0.1`, `1.0`, `1e+16`, `-inf`, `nan`. -/
def text (d : Double) : String :=
  d.textIn .standard

/-- The magnitude times `10 ^ places`, rounded. -/
def scaled (places : Nat) (d : Double) : Nat :=
  let f := d.magnitude.fraction
  roundDiv (f.1 * 10 ^ places) f.2

/-- The number with exactly `places` digits after the point. -/
def fixed (places : Nat) (d : Double) : String :=
  if d.isNaN then "nan"
  else
    let sign := if d.isNegative then "-" else ""
    if d.isInfinite then sign ++ "inf"
    else
      let n := d.scaled places
      let frac := Layout.digitsOf (n % 10 ^ places)
      sign ++ toString (n / 10 ^ places) ++ "." ++
        String.ofList (List.replicate (places - frac.length) '0' ++ frac)

/-- The number nearest to the value rounded to `places` decimal places. -/
def roundPlaces (places : Nat) (d : Double) : Double :=
  if d.isFinite then ofFraction d.isNegative (d.scaled places) (10 ^ places) else d

end Double

/-- A number that is an integer or a floating point number. -/
inductive Numeric where
  | int (n : Int)
  | real (d : Double)
  deriving DecidableEq, Repr

namespace Numeric

/-- The text of the number; an integer has no point. -/
def text : Numeric → String
  | .int n => toString n
  | .real d => d.text

/-- The order of two numbers by their exact values; none when one is a NaN. -/
def compare? : Numeric → Numeric → Option Ordering
  | .int a, .int b => some (compare a b)
  | .real a, .real b => extended a b
  | .int a, .real b => againstInt a b
  | .real a, .int b => (againstInt b a).map Ordering.swap
where
  byRat (a b : Rat) : Ordering := if a < b then .lt else if a = b then .eq else .gt
  againstInt (a : Int) (b : Double) : Option Ordering :=
    if b.isNaN then none
    else if b.isInfinite then some (if b.isNegative then .gt else .lt)
    else some (byRat a b.toRat)
  extended (a b : Double) : Option Ordering :=
    if a.isNaN || b.isNaN then none
    else if a.isFinite && b.isFinite then some (byRat a.toRat b.toRat)
    else if a.isFinite then some (if b.isNegative then .gt else .lt)
    else if b.isFinite then some (if a.isNegative then .lt else .gt)
    else some (compare (if a.isNegative then 0 else 1) (if b.isNegative then 0 else 1))

/-- Whether the first number is below the second. -/
def lt (a b : Numeric) : Bool := compare? a b == some .lt

/-- Whether the first number is at most the second. -/
def le (a b : Numeric) : Bool :=
  match compare? a b with
  | some .lt | some .eq => true
  | _ => false

/-- The exact value of a finite number. -/
def toRat : Numeric → Rat
  | .int n => n
  | .real d => d.toRat

/-- The greatest integer that is not above the number. -/
def floor (x : Numeric) : Int := x.toRat.floor

/-- The least integer that is not below the number. -/
def ceil (x : Numeric) : Int := x.toRat.ceil

/-- Whether the number lies between 0 and 1. -/
def inUnit (x : Numeric) : Bool := le (.int 0) x && le x (.int 1)

end Numeric

end Unscript.Number
