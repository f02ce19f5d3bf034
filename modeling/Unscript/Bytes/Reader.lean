import Unscript.Number.Double
import Unscript.Text.Hex

/-!
# Reading little-endian fields from a byte string

A cursor stands at an offset of a byte string and never reads past its limit. Every read takes one
field: on success the cursor stands after it, on failure the error names the field and the offset
at which it started. A text is a length and that many bytes of UTF-8; when the bytes are no text
the cursor stands after them although the read failed.

* `Reading` is a step that reads; `Reading.take` takes bytes, and `uint`, `sint`, `float` and
  `string` read numbers and texts.
* `DecodeError` holds what can be wrong with a compiled script, here or in a later reading stage,
  and where.
-/

namespace Unscript

open Number (Double)

-- Powers are those of `NatPow`, whichever other instances a proof brings into scope.
attribute [local instance (1100)] instPowNat

/-- What makes a byte string unreadable. -/
inductive DecodeFault where
  | negativeLength (field : String)
  | truncated (field : String)
  | floatWidth (width : Int)
  | notText (field : String)
  | badMagic (shown : String)
  | argumentCount (arguments locals : Nat)
  | functionFlags (flags : Nat)
  | constantTag (tag : Nat)
  | boolValue (value : Nat)
  | subscriptRange (index : Nat)
  | lineOffset (offset : Nat)
  | opcode (code : Nat)
  | constantRange (index count : Nat)
  | nameRange (index count : Nat)
  | nameKind (index : Nat)
  | localRange (slot count : Nat)
  | builtinRange (index count : Nat)
  | jumpTarget (target : Nat)
  | trailing (count : Nat)
  deriving DecidableEq, Repr

/-- The words for a fault. -/
def DecodeFault.message : DecodeFault → String
  | .negativeLength field => s!"negative length for {field}"
  | .truncated field => s!"truncated {field}"
  | .floatWidth width => s!"unsupported float width {width}"
  | .notText field => s!"{field} is not valid UTF-8"
  | .badMagic shown => s!"bad magic {shown}"
  | .argumentCount arguments locals =>
    s!"argument count {arguments} exceeds local count {locals}"
  | .functionFlags flags => "unknown function flags 0x" ++ Text.hexPadded 2 flags
  | .constantTag tag => s!"unknown constant tag {tag}"
  | .boolValue value => s!"invalid bool constant {value}"
  | .subscriptRange index => s!"sub-script reference {index} out of range"
  | .lineOffset offset => s!"line table offset {offset} is not an instruction boundary"
  | .opcode code => s!"unknown opcode {code}"
  | .constantRange index count => s!"constant index {index} out of range ({count} constants)"
  | .nameRange index count => s!"name index {index} out of range ({count} constants)"
  | .nameKind index => s!"name index {index} does not reference a string"
  | .localRange slot count => s!"local slot {slot} out of range ({count} locals)"
  | .builtinRange index count => s!"builtin index {index} out of range ({count} builtins)"
  | .jumpTarget target => s!"jump target {target} is not an instruction boundary"
  | .trailing count => s!"{count} trailing bytes after last function"

/-- A fault and the offset of the field that shows it. -/
structure DecodeError where
  fault : DecodeFault
  offset : Nat
  deriving DecidableEq, Repr

/-- The words for an error, with its offset. -/
def DecodeError.message (e : DecodeError) : String :=
  e.fault.message ++ " at offset " ++ Text.hexOffset e.offset

namespace Bytes

/-- The number written by bytes, the least significant first. -/
def toNat : List UInt8 → Nat
  | [] => 0
  | b :: bs => b.toNat + 256 * toNat bs

/-- The number written by bytes in two's complement. -/
def toInt (bs : List UInt8) : Int :=
  let n := toNat bs
  if 2 * n < 256 ^ bs.length then n else (n : Int) - 256 ^ bs.length

/-- The text written by bytes in UTF-8. -/
def toText? (bs : List UInt8) : Option String :=
  String.fromUTF8? ⟨bs.toArray⟩

theorem toNat_lt (bs : List UInt8) : toNat bs < 256 ^ bs.length := by
  induction bs with
  | nil => decide
  | cons b bs ih =>
    have hb : b.toNat < 256 := b.toNat_lt
    rw [toNat, List.length_cons, Nat.pow_succ]
    omega

end Bytes

/-- A place in a byte string: the bytes from there on, the offset, and the offset that no read may
pass. -/
structure Cursor where
  rest : List UInt8
  offset : Nat
  limit : Int
  deriving Repr

namespace Cursor

/-- A cursor at `offset`, limited to the byte string and to `limit` if there is one. -/
def ofBytes (data : List UInt8) (offset : Nat := 0) (limit : Option Int := none) : Cursor where
  rest := data.drop offset
  offset := offset
  limit := match limit with
    | some l => min l data.length
    | none => data.length

/-- The count of bytes up to the limit. -/
def remaining (c : Cursor) : Nat :=
  (c.limit - c.offset).toNat

/-- Whether nothing is left to read. -/
def atEnd (c : Cursor) : Bool :=
  c.limit ≤ c.offset

/-- The limit in force for a read with a limit of its own. -/
def bound (c : Cursor) (limit : Option Int) : Int :=
  match limit with
  | some l => min l c.limit
  | none => c.limit

/-- The cursor `n` bytes on. -/
def advance (c : Cursor) (n : Nat) : Cursor :=
  { c with rest := c.rest.drop n, offset := c.offset + n }

end Cursor

/-- A reading step: from a cursor to a value or an error, and the cursor after it. -/
abbrev Reading := ExceptT DecodeError (StateM Cursor)

namespace Reading

/-- Runs a step from a cursor. -/
def runFrom {α : Type} (r : Reading α) (c : Cursor) : Except DecodeError α × Cursor :=
  r.run.run c

/-- The step that fails at an offset. -/
def failAt {α : Type} (offset : Nat) (f : DecodeFault) : Reading α :=
  throw ⟨f, offset⟩

/-- The offset of the cursor. -/
def offset : Reading Nat :=
  return (← get).offset

/-- Takes `size` bytes of a field, within the limit of the cursor and `limit` if given. -/
def take (size : Int) (field : String) (limit : Option Int := none) : Reading (List UInt8) := do
  let c ← get
  if size < 0 then failAt c.offset (.negativeLength field)
  else if c.bound limit < c.offset + size then failAt c.offset (.truncated field)
  else
    set (c.advance size.toNat)
    return c.rest.take size.toNat

/-- Reads a number of `width` bytes. -/
def uint (width : Int) (field : String) (limit : Option Int := none) : Reading Nat :=
  return Bytes.toNat (← take width field limit)

/-- Reads a number of `width` bytes in two's complement. -/
def sint (width : Int) (field : String) (limit : Option Int := none) : Reading Int :=
  return Bytes.toInt (← take width field limit)

/-- Reads a floating point number of four or eight bytes. -/
def float (width : Int) (field : String) : Reading Double := do
  if width = 4 then
    return Double.widen (UInt32.ofNat (Bytes.toNat (← take 4 field)))
  else if width = 8 then
    return ⟨UInt64.ofNat (Bytes.toNat (← take 8 field))⟩
  else failAt (← offset) (.floatWidth width)

/-- Reads a text: four bytes of length and the bytes of the text. -/
def string (field : String) : Reading String := do
  let start ← offset
  let size ← uint 4 (field ++ " length")
  match Bytes.toText? (← take size field) with
  | some s => return s
  | none => failAt start (.notText field)

end Reading

end Unscript
