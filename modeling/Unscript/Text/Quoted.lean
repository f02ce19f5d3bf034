import Unscript.Text.Hex
import Unscript.Text.Printable

/-!
# Quoted text and quoted bytes

Messages and listings show a text between quotes. Single quotes are used unless the text holds a
single quote and no double one. A backslash and the quote in use are escaped, `\n`, `\r` and `\t`
have short escapes, and a character without a glyph is written by its code point. Bytes are quoted
the same way, after a `b`, and every byte outside printable ASCII is written by its two digits.

* `quoted` and `quotedBytes` write them.
* `replacingAscii` reads bytes as ASCII text in which a stray byte becomes U+FFFD.
-/

namespace Unscript.Text

/-- The quote for a text: double only when the text has single quotes and no double ones. -/
def quoteFor (cs : List Char) : Char :=
  if cs.contains '\'' && !cs.contains '"' then '"' else '\''

/-- A character by its code point, in the shortest of the three forms. -/
def escapedCode (n : Nat) : List Char :=
  if n < 0x100 then '\\' :: 'x' :: (hexPadded 2 n).toList
  else if n < 0x10000 then '\\' :: 'u' :: (hexPadded 4 n).toList
  else '\\' :: 'U' :: (hexPadded 8 n).toList

/-- One character of quoted text. -/
def quotedChar (quote c : Char) : List Char :=
  if c = quote ∨ c = '\\' then ['\\', c]
  else if c = '\n' then ['\\', 'n']
  else if c = '\r' then ['\\', 'r']
  else if c = '\t' then ['\\', 't']
  else if isPrintable c then [c]
  else escapedCode c.toNat

/-- The text between quotes. -/
def quoted (s : String) : String :=
  let cs := s.toList
  let q := quoteFor cs
  String.ofList (q :: cs.flatMap (quotedChar q) ++ [q])

/-- One byte of quoted bytes. -/
def quotedByte (quote : Char) (b : UInt8) : List Char :=
  let c := Char.ofNat b.toNat
  if c = quote ∨ c = '\\' then ['\\', c]
  else if c = '\n' then ['\\', 'n']
  else if c = '\r' then ['\\', 'r']
  else if c = '\t' then ['\\', 't']
  else if 0x20 ≤ b.toNat ∧ b.toNat < 0x7f then [c]
  else escapedCode b.toNat

/-- The bytes between quotes, after a `b`. -/
def quotedBytes (bytes : List UInt8) : String :=
  let q := quoteFor (bytes.map fun b => Char.ofNat b.toNat)
  String.ofList ('b' :: q :: bytes.flatMap (quotedByte q) ++ [q])

/-- Reads bytes as ASCII; a byte of 128 or above becomes the replacement character. -/
def replacingAscii (bytes : List UInt8) : String :=
  String.ofList (bytes.map fun b => if b.toNat < 128 then Char.ofNat b.toNat else '\ufffd')

/-- Reads bytes as ASCII, refusing any byte of 128 or above. -/
def ascii? (bytes : List UInt8) : Option String :=
  if bytes.all fun b => b.toNat < 128 then some (replacingAscii bytes) else none

end Unscript.Text
