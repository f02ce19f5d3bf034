/-!
# Hexadecimal text and columns

Offsets, byte strings and colours of text are written in base sixteen with lower-case digits, most
of them in a column of fixed width.

* `padLeft`, `padRight` fill a column.
* `hexNat` and `hexPadded` write a number, `hexBytes` a byte string, two digits a byte.
-/

namespace Unscript.Text

/-- Fills the text with `fill` on its left up to `width` characters. -/
def padLeft (width : Nat) (fill : Char) (s : String) : String :=
  String.ofList (List.replicate (width - s.length) fill) ++ s

/-- Fills the text with `fill` on its right up to `width` characters. -/
def padRight (width : Nat) (fill : Char) (s : String) : String :=
  s ++ String.ofList (List.replicate (width - s.length) fill)

/-- A number in base sixteen. -/
def hexNat (n : Nat) : String :=
  String.ofList (Nat.toDigits 16 n)

/-- A number in base sixteen with at least `width` digits. -/
def hexPadded (width n : Nat) : String :=
  padLeft width '0' (hexNat n)

/-- A code offset: `0x` and at least four digits. -/
def hexOffset (n : Nat) : String :=
  "0x" ++ hexPadded 4 n

/-- The digit of a half byte. -/
def hexDigit (n : Nat) : Char :=
  Nat.digitChar (n % 16)

/-- The digits of a byte string, two a byte. -/
def hexBytes (bytes : List UInt8) : String :=
  String.ofList (bytes.flatMap fun b => [hexDigit (b.toNat / 16), hexDigit b.toNat])

/-- The value of one digit of a byte string, in either case. -/
def hexDigitValue? (c : Char) : Option Nat :=
  if '0' ≤ c ∧ c ≤ '9' then some (c.toNat - 48)
  else if 'a' ≤ c ∧ c ≤ 'f' then some (c.toNat - 87)
  else if 'A' ≤ c ∧ c ≤ 'F' then some (c.toNat - 55)
  else none

/-- Reads pairs of digits as bytes; a character that is no digit, or one left over, refuses. -/
def unhex? : List Char → Option (List UInt8)
  | [] => some []
  | [_] => none
  | a :: b :: rest => do
    let hi ← hexDigitValue? a
    let lo ← hexDigitValue? b
    let bytes ← unhex? rest
    pure (UInt8.ofNat (16 * hi + lo) :: bytes)

example : hexPadded 4 26 = "001a" := by decide

end Unscript.Text
