import Unscript.Json.Value
import Unscript.Text.Hex

/-!
# Printing JSON documents

A document is printed with one item a line under an indentation, or on one line. Texts are escaped
only where the format demands it, or in every character outside ASCII as well.

* `Json.print` prints a document in a `Style`.
-/

namespace Unscript.Json

open Number (Layout)
open Text (hexPadded)

/-- How a document is printed: the columns of one level of indentation, if any, and whether
characters outside ASCII are escaped. -/
structure Style where
  indent : Option Nat
  asciiOnly : Bool

namespace Style

/-- Two columns a level, ASCII only. -/
def console : Style := ⟨some 2, true⟩

/-- Two columns a level, every character as it is. -/
def file : Style := ⟨some 2, false⟩

/-- One line, every character as it is. -/
def line : Style := ⟨none, false⟩

end Style

/-- The escape of one unit of sixteen bits. -/
def unitEscape (n : Nat) : List Char :=
  '\\' :: 'u' :: (hexPadded 4 n).toList

/-- One character inside a printed text. -/
def printedChar (asciiOnly : Bool) (c : Char) : List Char :=
  let n := c.toNat
  if c = '"' ∨ c = '\\' then ['\\', c]
  else if c = '\n' then ['\\', 'n']
  else if c = '\r' then ['\\', 'r']
  else if c = '\t' then ['\\', 't']
  else if n = 8 then ['\\', 'b']
  else if n = 12 then ['\\', 'f']
  else if n < 0x20 then unitEscape n
  else if asciiOnly && n ≥ 0x10000 then
    unitEscape (0xd800 + (n - 0x10000) / 0x400) ++ unitEscape (0xdc00 + (n - 0x10000) % 0x400)
  else if asciiOnly && n > 0x7e then unitEscape n
  else [c]

/-- A printed text with its quotes. -/
def printedText (asciiOnly : Bool) (s : String) : String :=
  String.ofList ('"' :: s.toList.flatMap (printedChar asciiOnly) ++ ['"'])

namespace Style

/-- What stands before an item at a depth. -/
def lineStart (st : Style) (depth : Nat) : String :=
  match st.indent with
  | some n => "\n" ++ String.ofList (List.replicate (n * depth) ' ')
  | none => ""

/-- What stands between two items at a depth. -/
def separator (st : Style) (depth : Nat) : String :=
  match st.indent with
  | some _ => "," ++ st.lineStart depth
  | none => ", "

end Style

mutual

/-- Prints a document that stands at a depth. -/
def printAt (st : Style) (depth : Nat) : Json → String
  | .null => "null"
  | .bool b => if b then "true" else "false"
  | .int n => toString n
  | .real d => d.textIn .json
  | .text s => printedText st.asciiOnly s
  | .array [] => "[]"
  | .array (x :: xs) =>
    "[" ++ st.lineStart (depth + 1) ++ printAt st (depth + 1) x ++ printItems st (depth + 1) xs ++
      st.lineStart depth ++ "]"
  | .object [] => "\x7b\x7d"
  | .object ((k, v) :: ms) =>
    "\x7b" ++ st.lineStart (depth + 1) ++ printedText st.asciiOnly k ++ ": " ++
      printAt st (depth + 1) v ++ printMembers st (depth + 1) ms ++ st.lineStart depth ++ "\x7d"

/-- Prints the items after the first. -/
def printItems (st : Style) (depth : Nat) : List Json → String
  | [] => ""
  | x :: xs => st.separator depth ++ printAt st depth x ++ printItems st depth xs

/-- Prints the members after the first. -/
def printMembers (st : Style) (depth : Nat) : List (String × Json) → String
  | [] => ""
  | (k, v) :: ms =>
    st.separator depth ++ printedText st.asciiOnly k ++ ": " ++ printAt st depth v ++
      printMembers st depth ms

end

/-- Prints a document. -/
def print (st : Style) (j : Json) : String :=
  printAt st 0 j

end Unscript.Json
