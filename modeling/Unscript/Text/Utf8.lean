/-!
# Text in UTF-8

A character takes one to four bytes. The first tells how many follow and which second byte is
allowed; all others lie between `0x80` and `0xbf`. Bytes that are no text are refused at the first
character that cannot be completed.

* `Utf8.read` reads bytes as text; `Utf8.Error.message` tells where and why they are none.
-/

namespace Unscript.Text.Utf8

/-- Why bytes are no text. -/
inductive Fault where
  | start
  | continuation
  | unfinished
  deriving DecidableEq, Repr

/-- The words for a fault. -/
def Fault.text : Fault → String
  | .start => "invalid start byte"
  | .continuation => "invalid continuation byte"
  | .unfinished => "unexpected end of data"

/-- A fault, the index of the first byte of the character at fault, that byte, and how many bytes
of the character had been accepted; at least one is reported. -/
structure Error where
  fault : Fault
  position : Nat
  first : UInt8
  count : Nat
  deriving DecidableEq, Repr

/-- The words for an error with its place. -/
def Error.message (e : Error) : String :=
  if e.count ≤ 1 then
    let digits := String.ofList (Nat.toDigits 16 e.first.toNat)
    s!"'utf-8' codec can't decode byte 0x{digits} in position {e.position}: {e.fault.text}"
  else
    let last := e.position + e.count - 1
    s!"'utf-8' codec can't decode bytes in position {e.position}-{last}: {e.fault.text}"

/-- How many bytes follow a first byte, and the bounds of the second. -/
def follow? (b : UInt8) : Option (Nat × UInt8 × UInt8) :=
  if b ≤ 0x7f then some (0, 0x80, 0xbf)
  else if b < 0xc2 then none
  else if b ≤ 0xdf then some (1, 0x80, 0xbf)
  else if b = 0xe0 then some (2, 0xa0, 0xbf)
  else if b = 0xed then some (2, 0x80, 0x9f)
  else if b ≤ 0xef then some (2, 0x80, 0xbf)
  else if b = 0xf0 then some (3, 0x90, 0xbf)
  else if b ≤ 0xf3 then some (3, 0x80, 0xbf)
  else if b = 0xf4 then some (3, 0x80, 0x8f)
  else none

/-- A character that is not complete: where it starts, its first byte, how many bytes it still
lacks, and the bounds of the next. -/
structure Pending where
  position : Nat
  first : UInt8
  owed : Nat
  low : UInt8
  high : UInt8

/-- The first error in bytes that start at an index, within a character that is not complete or
between characters. -/
def errorFrom : Nat → Option Pending → List UInt8 → Option Error
  | _, none, [] => none
  | position, some p, [] => some ⟨.unfinished, p.position, p.first, position - p.position⟩
  | position, none, b :: rest =>
    match follow? b with
    | none => some ⟨.start, position, b, 1⟩
    | some (0, _) => errorFrom (position + 1) none rest
    | some (owed, low, high) => errorFrom (position + 1) (some ⟨position, b, owed, low, high⟩) rest
  | position, some p, b :: rest =>
    if p.low ≤ b ∧ b ≤ p.high then
      let next := if p.owed ≤ 1 then none
        else some { p with owed := p.owed - 1, low := 0x80, high := 0xbf }
      errorFrom (position + 1) next rest
    else some ⟨.continuation, p.position, p.first, position - p.position⟩

/-- Reads bytes as text. -/
def read (bytes : List UInt8) : Except Error String :=
  match errorFrom 0 none bytes with
  | some e => .error e
  | none => .ok ((String.fromUTF8? ⟨bytes.toArray⟩).getD "")

/-- The text with every line ending made a line feed. -/
def plainLines : List Char → List Char
  | [] => []
  | '\r' :: '\n' :: rest => '\n' :: plainLines rest
  | '\r' :: rest => '\n' :: plainLines rest
  | c :: rest => c :: plainLines rest

example : (errorFrom 0 none [0x61, 0xe2, 0x82]).map (·.message) =
    some "'utf-8' codec can't decode bytes in position 1-2: unexpected end of data" := by
  decide +kernel

end Unscript.Text.Utf8
