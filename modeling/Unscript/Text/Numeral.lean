import Unscript.Text.Blank

/-!
# Numerals as people write them

A numeral has optional blanks around it, an optional sign, in base sixteen an optional `0x`, and
digits that single underscores may separate. A digit may come from any script that has decimal
digits; the letters for ten and above are the Latin ones.

* `readInt?` reads a whole text as one numeral.
* `digitValue?` is the value of one character as a digit.
-/

namespace Unscript.Text

/-- The zero of every run of ten decimal digits in Unicode 14. -/
def decimalZeros : List Nat := [
  0x30, 0x660, 0x6f0, 0x7c0, 0x966, 0x9e6, 0xa66, 0xae6, 0xb66, 0xbe6,
  0xc66, 0xce6, 0xd66, 0xde6, 0xe50, 0xed0, 0xf20, 0x1040, 0x1090, 0x17e0,
  0x1810, 0x1946, 0x19d0, 0x1a80, 0x1a90, 0x1b50, 0x1bb0, 0x1c40, 0x1c50, 0xa620,
  0xa8d0, 0xa900, 0xa9d0, 0xa9f0, 0xaa50, 0xabf0, 0xff10, 0x104a0, 0x10d30, 0x11066,
  0x110f0, 0x11136, 0x111d0, 0x112f0, 0x11450, 0x114d0, 0x11650, 0x116c0, 0x11730, 0x118e0,
  0x11950, 0x11c50, 0x11d50, 0x11da0, 0x16a60, 0x16ac0, 0x16b50, 0x1d7ce, 0x1d7d8, 0x1d7e2,
  0x1d7ec, 0x1d7f6, 0x1e140, 0x1e2f0, 0x1e950, 0x1fbf0]

/-- The value of a decimal digit of any script. -/
def decimalDigit? (c : Char) : Option Nat :=
  if c.toNat < 0x80 then
    if c.isDigit then some (c.toNat - 48) else none
  else
    (decimalZeros.find? fun z => z ≤ c.toNat && c.toNat ≤ z + 9).map (c.toNat - ·)

/-- The value of a character as a digit, where Latin letters count from ten. -/
def digitValue? (c : Char) : Option Nat :=
  if c.isLower then some (c.toNat - 87)
  else if c.isUpper then some (c.toNat - 55)
  else decimalDigit? c

/-- Whether a blank may stand beside a numeral: the information separators may not. -/
def isNumeralBlank (c : Char) : Bool :=
  isBlank c && !(0x1c ≤ c.toNat && c.toNat ≤ 0x1f)

/-- Reads digits below `base` with single underscores between them; `acc` is the value so far and
`mustFollow` tells that a digit has to follow. -/
def readDigits? (base : Nat) (acc : Nat) (mustFollow : Bool) : List Char → Option Nat
  | [] => if mustFollow then none else some acc
  | c :: cs =>
    if c = '_' then
      if mustFollow then none else readDigits? base acc true cs
    else
      match digitValue? c with
      | some d => if d < base then readDigits? base (base * acc + d) false cs else none
      | none => none

/-- Drops the mark of base sixteen, `0x`, and the one underscore that may follow it. -/
def dropHexMark (cs : List Char) : List Char :=
  match cs with
  | z :: x :: rest =>
    if decimalDigit? z = some 0 ∧ (x = 'x' ∨ x = 'X') then
      match rest with
      | '_' :: r => r
      | r => r
    else cs
  | _ => cs

/-- Reads the digits of a numeral in `base`, after its sign. -/
def readMagnitude? (base : Nat) (cs : List Char) : Option Nat :=
  readDigits? base 0 true (if base = 16 then dropHexMark cs else cs)

/-- The text without the blanks around a numeral. -/
def numeralBody (s : String) : List Char :=
  ((s.toList.dropWhile isNumeralBlank).reverse.dropWhile isNumeralBlank).reverse

/-- Reads the whole text as a numeral in `base`. -/
def readInt? (base : Nat) (s : String) : Option Int :=
  match numeralBody s with
  | '-' :: r => (readMagnitude? base r).map fun n => -(n : Int)
  | '+' :: r => (readMagnitude? base r).map fun n => (n : Int)
  | r => (readMagnitude? base r).map fun n => (n : Int)

example : readInt? 16 "0x_1f" = some 31 := by decide
example : readInt? 16 "1__0" = none := by decide

end Unscript.Text
