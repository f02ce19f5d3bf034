import Unscript.Text.Numeral
import Unscript.Text.Quoted

/-!
# Dialect ids

A dialect is known by the commit that introduced it: seven hexadecimal digits. A key may spell the
id as text, with blanks around it and one mark `v_` or `0x` in front, as a number, or as ASCII
bytes.

* `Key.id` brings a key to its canonical id or says that it is none.
* `Key.shown` is the key as messages show it.
-/

namespace Unscript

open Text (quotedBytes readInt? padLeft hexPadded trim)

/-- A spelling of a dialect id. -/
inductive Key where
  | text (s : String)
  | number (n : Int)
  | bytes (bs : List UInt8)
  deriving DecidableEq, Repr

/-- The reason why a key is no id; `shown` is the key as the message quotes it. -/
inductive KeyError where
  | negative (n : Int)
  | malformed (shown : String)
  deriving DecidableEq, Repr

/-- The words for a reason. -/
def KeyError.message : KeyError → String
  | .negative n => s!"invalid version id {n}"
  | .malformed shown => s!"invalid version tag {shown}"

namespace Key

/-- The count of digits of an id. -/
def idLength : Nat := 7

/-- The text without the one mark that may stand in front. -/
def dropMark (cs : List Char) : List Char :=
  match cs with
  | 'v' :: '_' :: r => r
  | '0' :: 'x' :: r => r
  | r => r

/-- The canonical id of a text. -/
def idOfText (s : String) : Except KeyError String :=
  let cs := dropMark ((Text.strip s.toList).map Char.toLower)
  let digits := String.ofList cs
  if cs.isEmpty || idLength < cs.length || (readInt? 16 digits).isNone then
    .error (.malformed (Text.quoted s))
  else .ok (padLeft idLength '0' digits)

/-- The canonical id of a key. -/
def id : Key → Except KeyError String
  | .text s => idOfText s
  | .number n =>
    if n < 0 then .error (.negative n) else .ok (hexPadded idLength n.toNat)
  | .bytes bs =>
    match Text.ascii? bs with
    | some s => idOfText s
    | none => .error (.malformed (quotedBytes bs))

/-- The key in quotes, if it is no number. -/
def quoted : Key → String
  | .text s => Text.quoted s
  | .number n => toString n
  | .bytes bs => quotedBytes bs

/-- The key as a message about an unknown version shows it. -/
def shown : Key → String
  | .text s => s
  | .number n => toString n
  | .bytes bs => Text.replacingAscii bs

end Key

end Unscript
