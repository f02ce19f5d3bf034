import Unscript.Number.Double
import Unscript.Text.Quoted

/-!
# Writing little-endian fields

The counterpart of the reader: each function gives the bytes of one field, or says why the value
has none. Nothing wraps: a value that does not fit its width is an error.

* `Bytes.ofUInt?`, `ofSInt?`, `ofFloat?` and `ofText?` write the four kinds of fields.
* `EncodeError` holds what can be wrong with a script to be written, `EncodeError.message?` the
  words for it.
-/

namespace Unscript

open Number (Double)

-- Powers are those of `NatPow`, whichever other instances a proof brings into scope.
attribute [local instance (1100)] instPowNat

/-- What makes a script unwritable. -/
inductive EncodeError where
  | unsignedRange (value : Int) (width : Int)
  | signedRange (value : Int) (width : Int)
  | negativeWidth
  | floatWidth (width : Int)
  | floatRange
  | notEncodable (mnemonic id : String)
  | operandCount (mnemonic : String) (wanted given : Nat)
  | untagged (kind : String)
  | unknownKind (kind : String)
  | localNames
  | className (id : String)
  | incomplete
  | duplicateLabel (name : String)
  | undefinedLabel (name : String)
  | unknownBuiltin
  deriving DecidableEq, Repr

/-- The words for what makes a script unwritable; some of it has none. -/
def EncodeError.message? : EncodeError → Option String
  | .unsignedRange value width => some s!"value {value} does not fit in {width} unsigned bytes"
  | .signedRange value width => some s!"value {value} does not fit in {width} signed bytes"
  | .floatWidth width => some s!"unsupported float width {width}"
  | .notEncodable mnemonic id => some s!"{mnemonic} is not encodable in {id}"
  | .operandCount mnemonic wanted given =>
    some s!"{mnemonic} takes {wanted} operand(s), got {given}"
  | .unknownKind kind => some ("unknown constant kind " ++ Text.quoted kind)
  | .localNames => some "local name table must cover every local slot"
  | .className id => some s!"{id} cannot record a class name"
  | .incomplete => some "cannot re-encode an incomplete unit"
  | .duplicateLabel name => some ("label " ++ Text.quoted name ++ " defined twice")
  | .undefinedLabel name => some ("undefined label " ++ Text.quoted name)
  | .negativeWidth | .floatRange | .untagged _ | .unknownBuiltin => none

namespace Bytes

/-- The low `width` bytes of a number, the least significant first. -/
def ofNat : Nat → Nat → List UInt8
  | 0, _ => []
  | width + 1, n => UInt8.ofNat n :: ofNat width (n / 256)

@[simp] theorem length_ofNat (width n : Nat) : (ofNat width n).length = width := by
  induction width generalizing n with
  | zero => rfl
  | succ w ih => simp [ofNat, ih]

/-- A number in `width` bytes. -/
def ofUInt? (value width : Int) : Except EncodeError (List UInt8) :=
  if width < 0 then .error .negativeWidth
  else if 0 ≤ value ∧ value < 256 ^ width.toNat then .ok (ofNat width.toNat value.toNat)
  else .error (.unsignedRange value width)

/-- A number in `width` bytes of two's complement: what lies above the last bit is all zeros or all
ones. -/
def ofSInt? (value width : Int) : Except EncodeError (List UInt8) :=
  if width < 0 then .error .negativeWidth
  else
    let above := value / 2 ^ (8 * width.toNat - 1)
    if above = 0 ∨ above = -1 then
      .ok (ofNat width.toNat (value % 256 ^ width.toNat).toNat)
    else .error (.signedRange value width)

/-- A floating point number in four or eight bytes. -/
def ofFloat? (value : Double) (width : Int) : Except EncodeError (List UInt8) :=
  if width = 4 then
    match value.narrow? with
    | some bits => .ok (ofNat 4 bits.toNat)
    | none => .error .floatRange
  else if width = 8 then .ok (ofNat 8 value.bits.toNat)
  else .error (.floatWidth width)

/-- The bytes of a text in UTF-8. -/
def ofString (s : String) : List UInt8 :=
  s.toUTF8.data.toList

/-- A text: four bytes of length and the bytes of the text. -/
def ofText? (s : String) : Except EncodeError (List UInt8) := do
  let body := ofString s
  let length ← ofUInt? body.length 4
  pure (length ++ body)

end Bytes

end Unscript
