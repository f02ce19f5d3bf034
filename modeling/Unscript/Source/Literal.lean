import Unscript.Script.Constant
import Unscript.Text.Hex

/-!
# Literals of source text

* `Source.stringLiteral` writes a text between double quotes, so that no control character stands in
  it.
* `Source.floatLiteral` writes a floating point number so that it reads back as one. Infinities and
  numbers that are none have names only in dialects with the feature; elsewhere a quotient stands
  for them.
-/

namespace Unscript.Source

open Number (Double)

/-- A character of a string literal. -/
def escapedChar (c : Char) : List Char :=
  match c with
  | '\\' => ['\\', '\\']
  | '"' => ['\\', '"']
  | '\n' => ['\\', 'n']
  | '\t' => ['\\', 't']
  | '\r' => ['\\', 'r']
  | '\x07' => ['\\', 'a']
  | '\x08' => ['\\', 'b']
  | '\x0c' => ['\\', 'f']
  | '\x0b' => ['\\', 'v']
  | c =>
    if c.toNat < 0x20 ∨ c.toNat = 0x7f then '\\' :: 'u' :: (Text.hexPadded 4 c.toNat).toList
    else [c]

/-- A text as a string literal. -/
def stringLiteral (s : String) : String :=
  String.ofList ('"' :: s.toList.flatMap escapedChar ++ ['"'])

/-- The number nearest to half a turn. -/
def halfTurn : Double := ⟨0x400921fb54442d18⟩

/-- The number nearest to a full turn. -/
def fullTurn : Double := ⟨0x401921fb54442d18⟩

/-- A point in a number that has an exponent but none. -/
def withPoint (text : String) : String :=
  let cs := text.toList
  let digits := cs.takeWhile (· != 'e')
  if digits.contains '.' || digits.length = cs.length then text
  else String.ofList (digits ++ ['.', '0'] ++ cs.drop digits.length)

/-- A floating point number as a literal of a dialect that has some features. -/
def floatLiteral (supports : String → Bool) (d : Double) : String :=
  if d.isNaN then
    if supports "const_inf_nan" then "NAN" else "(0.0 / 0.0)"
  else if d.isInfinite then
    if supports "const_inf_nan" then
      if d.isNegative then "-INF" else "INF"
    else if d.isNegative then "(-1.0 / 0.0)" else "(1.0 / 0.0)"
  else if d = halfTurn && supports "const_pi" then "PI"
  else if d = fullTurn && supports "const_tau" then "TAU"
  else withPoint d.text

end Unscript.Source
