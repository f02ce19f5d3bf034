import Unscript.Json.Value
import Unscript.Number.Numeral

/-!
# Reading JSON documents

The reader accepts one document with blanks around it, and beyond the standard the words `NaN`,
`Infinity` and `-Infinity`. A member that occurs twice keeps its first place and its last value. A
document that is refused names the first character at fault.

* `Json.parse` reads a text; `ParseError.message` tells where and why it was refused.
-/

namespace Unscript.Json

open Number

/-- Why a text is no document. -/
inductive Fault where
  | expectingValue
  | expectingName
  | expectingColon
  | expectingComma
  | unterminatedText
  | controlCharacter
  | unknownEscape
  | brokenUnitEscape
  | extraData
  | byteOrderMark
  deriving DecidableEq, Repr

/-- A fault and the index of the character at which it is reported. -/
structure ParseError where
  fault : Fault
  position : Nat
  deriving DecidableEq, Repr

/-- The words for a fault. -/
def Fault.message : Fault → String
  | .expectingValue => "Expecting value"
  | .expectingName => "Expecting property name enclosed in double quotes"
  | .expectingColon => "Expecting ':' delimiter"
  | .expectingComma => "Expecting ',' delimiter"
  | .unterminatedText => "Unterminated string starting at"
  | .controlCharacter => "Invalid control character at"
  | .unknownEscape => "Invalid \\escape"
  | .brokenUnitEscape => "Invalid \\uXXXX escape"
  | .extraData => "Extra data"
  | .byteOrderMark => "Unexpected UTF-8 BOM (decode using utf-8-sig)"

/-- The words for a fault with its place in the text, as line, column and index. -/
def ParseError.message (e : ParseError) (doc : List Char) : String :=
  let before := doc.take e.position
  let line := before.count '\n' + 1
  let column := (before.reverse.takeWhile (· ≠ '\n')).length + 1
  s!"{e.fault.message}: line {line} column {column} (char {e.position})"

/-- What is left to read, and the index of its first character. -/
structure Input where
  rest : List Char
  position : Nat

namespace Input

/-- Drops `n` characters. -/
def drop (i : Input) (n : Nat) : Input :=
  ⟨i.rest.drop n, i.position + n⟩

/-- Whether the character may stand between tokens. -/
def isSpace (c : Char) : Bool :=
  c == ' ' || c == '\t' || c == '\n' || c == '\r'

/-- Drops the blanks at the front. -/
def skip (i : Input) : Input :=
  i.drop (i.rest.takeWhile isSpace).length

/-- The error at the next character. -/
def fail {α : Type} (i : Input) (f : Fault) : Except ParseError α :=
  .error ⟨f, i.position⟩

/-- Drops the word if it is what comes next. -/
def word? (i : Input) (w : String) : Option Input :=
  if w.toList.isPrefixOf i.rest then some (i.drop w.length) else none

end Input

/-- The value of a digit of an escape. -/
def escapeDigit? (c : Char) : Option Nat :=
  if '0' ≤ c ∧ c ≤ '9' then some (c.toNat - 48)
  else if 'a' ≤ c ∧ c ≤ 'f' then some (c.toNat - 87)
  else if 'A' ≤ c ∧ c ≤ 'F' then some (c.toNat - 55)
  else none

/-- The value of four digits at the front. -/
def fourDigits? : List Char → Option Nat
  | a :: b :: c :: d :: _ => do
    let a ← escapeDigit? a
    let b ← escapeDigit? b
    let c ← escapeDigit? c
    let d ← escapeDigit? d
    pure (((a * 16 + b) * 16 + c) * 16 + d)
  | _ => none

/-- The character of a unit of sixteen bits that stands alone. -/
def loneUnit (n : Nat) : Char :=
  if 0xd800 ≤ n ∧ n ≤ 0xdfff then '\ufffd' else Char.ofNat n

/-- Reads the digits after `\u`, joining two units that form a pair. The result is the character
and the count of characters read. -/
def unitEscape? (i : Input) : Except ParseError (Char × Nat) :=
  let broken : ParseError := ⟨.brokenUnitEscape, i.position - 1⟩
  if i.rest.length < 5 then .error broken
  else
    match fourDigits? i.rest with
    | none => .error broken
    | some hi =>
      let second := i.rest.drop 4
      if 0xd800 ≤ hi ∧ hi ≤ 0xdbff ∧ 6 < second.length ∧ second.take 2 = ['\\', 'u'] then
        match fourDigits? (second.drop 2) with
        | none => .error ⟨.brokenUnitEscape, i.position + 5⟩
        | some lo =>
          if 0xdc00 ≤ lo ∧ lo ≤ 0xdfff then
            .ok (Char.ofNat (0x10000 + (hi - 0xd800) * 0x400 + (lo - 0xdc00)), 10)
          else .ok (loneUnit hi, 4)
      else .ok (loneUnit hi, 4)

/-- The character of a one-letter escape. -/
def shortEscape? : Char → Option Char
  | '"' => some '"'
  | '\\' => some '\\'
  | '/' => some '/'
  | 'b' => some '\x08'
  | 'f' => some '\x0c'
  | 'n' => some '\n'
  | 'r' => some '\r'
  | 't' => some '\t'
  | _ => none

/-- Reads the rest of a text whose opening quote stands at `start`; `acc` holds what was read,
reversed. -/
def readText (start : Nat) : Nat → List Char → Input → Except ParseError (String × Input)
  | 0, _, _ => .error ⟨.unterminatedText, start⟩
  | fuel + 1, acc, i =>
    match i.rest with
    | [] => .error ⟨.unterminatedText, start⟩
    | '"' :: _ => .ok (String.ofList acc.reverse, i.drop 1)
    | ['\\'] => .error ⟨.unterminatedText, start⟩
    | '\\' :: 'u' :: _ => do
      let (c, n) ← unitEscape? (i.drop 2)
      readText start fuel (c :: acc) (i.drop (2 + n))
    | '\\' :: e :: _ =>
      match shortEscape? e with
      | some c => readText start fuel (c :: acc) (i.drop 2)
      | none => i.fail .unknownEscape
    | c :: _ =>
      if c.toNat < 0x20 then i.fail .controlCharacter
      else readText start fuel (c :: acc) (i.drop 1)

/-- Reads a number. -/
def readNumber (i : Input) : Except ParseError (Json × Input) :=
  let (negative, cs) := match i.rest with
    | '-' :: r => (true, r)
    | r => (false, r)
  let whole := match cs with
    | '0' :: _ => ['0']
    | r => (Numeral.spanDigits r).1
  if whole.isEmpty then i.fail .expectingValue
  else
    let rest := cs.drop whole.length
    let frac := match rest with
      | '.' :: r => (Numeral.spanDigits r).1
      | _ => []
    let fracLength := if frac.isEmpty then 0 else frac.length + 1
    let exp := Numeral.exponent? (rest.drop fracLength)
    let length := (if negative then 1 else 0) + whole.length + fracLength + (exp.map (·.2)).getD 0
    if frac.isEmpty && exp.isNone then
      let n : Int := Numeral.natOf whole
      .ok (.int (if negative then -n else n), i.drop length)
    else
      let e := (exp.map (·.1)).getD 0 - frac.length
      .ok (.real (Numeral.value negative (whole ++ frac) e), i.drop length)

/-- Reads a document that is a word or a number. -/
def readScalar (i : Input) : Except ParseError (Json × Input) :=
  if let some r := i.word? "null" then .ok (.null, r)
  else if let some r := i.word? "true" then .ok (.bool true, r)
  else if let some r := i.word? "false" then .ok (.bool false, r)
  else if let some r := i.word? "NaN" then
    .ok (.real (Double.quietNaN false), r)
  else if let some r := i.word? "Infinity" then
    .ok (.real (Double.ofFields false Double.infinityBits), r)
  else if let some r := i.word? "-Infinity" then
    .ok (.real (Double.ofFields true Double.infinityBits), r)
  else readNumber i

mutual

/-- Reads the document at the front. Every nested document takes at least one character, so the
length of the text is fuel enough. -/
def readValue : Nat → Input → Except ParseError (Json × Input)
  | 0, i => i.fail .expectingValue
  | fuel + 1, i =>
    match i.rest with
    | '"' :: _ => do
      let (s, r) ← readText i.position (i.rest.length) [] (i.drop 1)
      pure (.text s, r)
    | '{' :: _ =>
      let j := (i.drop 1).skip
      match j.rest with
      | '}' :: _ => .ok (.object [], j.drop 1)
      | _ => readMembers fuel [] j
    | '[' :: _ =>
      let j := (i.drop 1).skip
      match j.rest with
      | ']' :: _ => .ok (.array [], j.drop 1)
      | _ => readItems fuel [] j
    | _ => readScalar i

/-- Reads the items of an array up to its end; `acc` holds those read, reversed. -/
def readItems : Nat → List Json → Input → Except ParseError (Json × Input)
  | 0, _, i => i.fail .expectingValue
  | fuel + 1, acc, i => do
    let (v, r) ← readValue fuel i
    let r := r.skip
    match r.rest with
    | ']' :: _ => pure (.array (v :: acc).reverse, r.drop 1)
    | ',' :: _ => readItems fuel (v :: acc) (r.drop 1).skip
    | _ => r.fail .expectingComma

/-- Reads the members of an object up to its end; `acc` holds those read. -/
def readMembers : Nat → List (String × Json) → Input → Except ParseError (Json × Input)
  | 0, _, i => i.fail .expectingName
  | fuel + 1, acc, i =>
    match i.rest with
    | '"' :: _ => do
      let (k, r) ← readText i.position (i.rest.length) [] (i.drop 1)
      let r := r.skip
      match r.rest with
      | ':' :: _ => do
        let (v, r) ← readValue fuel (r.drop 1).skip
        let r := r.skip
        match r.rest with
        | '}' :: _ => pure (.object (insert k v acc), r.drop 1)
        | ',' :: _ => readMembers fuel (insert k v acc) (r.drop 1).skip
        | _ => r.fail .expectingComma
      | _ => r.fail .expectingColon
    | _ => i.fail .expectingName

end

/-- Reads a whole text as one document. -/
def parse (doc : List Char) : Except ParseError Json :=
  if doc.head? = some '\ufeff' then .error ⟨.byteOrderMark, 0⟩
  else do
    let (v, r) ← readValue (doc.length + 1) (Input.skip ⟨doc, 0⟩)
    let r := r.skip
    match r.rest with
    | [] => pure v
    | _ => r.fail .extraData

end Unscript.Json
