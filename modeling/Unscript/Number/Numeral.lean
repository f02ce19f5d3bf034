import Unscript.Number.Double
import Unscript.Text.Numeral

/-!
# Numerals of floating point numbers

A numeral is an optional sign, digits with at most one point among them, and an optional exponent.
Its value is rounded once to the nearest number. As people write them, numerals may have blanks
around them, digits of any script, and single underscores between digits.

* `Numeral.value` is the number of digits and exponent.
* `Double.read?` reads a whole text as one numeral.
-/

namespace Unscript.Number

-- Powers are those of `NatPow`, whichever other instances a proof brings into scope.
attribute [local instance (1100)] instPowNat

namespace Numeral

/-- The value of decimal digits. -/
def natOf (ds : List Char) : Nat :=
  ds.foldl (fun n c => 10 * n + (c.toNat - 48)) 0

/-- The number `digits * 10 ^ exponent`, at once infinite or zero when that is beyond doubt. -/
def value (negative : Bool) (ds : List Char) (exponent : Int) : Double :=
  let size := ((ds.dropWhile (· == '0')).length : Int) + exponent
  if ds.all (· == '0') then Double.ofFields negative 0
  else if 400 < size then Double.ofFields negative Double.infinityBits
  else if size < -400 then Double.ofFields negative 0
  else Double.ofFraction negative (natOf ds * 10 ^ exponent.toNat) (10 ^ (-exponent).toNat)

/-- Splits off the digits at the front. -/
def spanDigits (cs : List Char) : List Char × List Char :=
  (cs.takeWhile Char.isDigit, cs.dropWhile Char.isDigit)

/-- The exponent at the front: its value and how many characters it takes. -/
def exponent? (cs : List Char) : Option (Int × Nat) :=
  match cs with
  | e :: rest =>
    if e = 'e' ∨ e = 'E' then
      let (negative, signLength, digits) := match rest with
        | '-' :: r => (true, 1, r)
        | '+' :: r => (false, 1, r)
        | r => (false, 0, r)
      let ds := (spanDigits digits).1
      if ds.isEmpty then none
      else some (if negative then -(natOf ds : Int) else natOf ds, 1 + signLength + ds.length)
    else none
  | [] => none

/-- The digits after a point at the front, and what follows them. -/
def fraction (cs : List Char) : List Char × List Char :=
  match cs with
  | '.' :: r => spanDigits r
  | r => ([], r)

/-- The number of a numeral without its sign, if all characters belong to it. -/
def unsigned? (negative : Bool) (cs : List Char) : Option Double :=
  let word := cs.map Char.toLower
  if word = "inf".toList ∨ word = "infinity".toList then
    some (Double.ofFields negative Double.infinityBits)
  else if word = "nan".toList then
    some (Double.quietNaN negative)
  else
    let (whole, rest) := spanDigits cs
    let (frac, rest) := fraction rest
    let (e, length) := (exponent? rest).getD (0, 0)
    if (whole ++ frac).isEmpty || length < rest.length then none
    else some (value negative (whole ++ frac) (e - frac.length))

/-- Drops underscores, each of which must stand between two digits; `after` tells that a digit came
before. -/
def joined? (after : Bool) : List Char → Option (List Char)
  | [] => some []
  | '_' :: c :: rest =>
    if after && c.isDigit then (joined? true rest).map (c :: ·) else none
  | c :: rest =>
    if c = '_' then none else (joined? c.isDigit rest).map (c :: ·)

/-- A digit of any script as the digit of ASCII, any other character as it is. -/
def plainDigit (c : Char) : Char :=
  match Text.decimalDigit? c with
  | some d => Char.ofNat (48 + d)
  | none => c

end Numeral

/-- Reads the whole text as a numeral. -/
def Double.read? (s : String) : Option Double := do
  let cs ← Numeral.joined? false ((Text.numeralBody s).map Numeral.plainDigit)
  match cs with
  | '-' :: r => Numeral.unsigned? true r
  | '+' :: r => Numeral.unsigned? false r
  | r => Numeral.unsigned? false r

example : (Double.read? " 1_0.5e-1 ").map (·.bits) = some 0x3ff0cccccccccccd := by decide +kernel
example : Double.read? "1__0" = none := by decide +kernel
example : Double.read? "." = none := by decide +kernel

end Unscript.Number
