import Unscript.Container
import Unscript.Script.Decode

/-!
# Writing payloads

The inverse of decoding: functions are written with the widths, tags and numbers of a dialect, and
whatever does not fit is an error. Writing a unit that was decoded to its end gives the payload it
was decoded from.

* `Encode.instruction` writes one instruction, `Encode.script?` a payload, and `Script.encode?` the
  payload of a decoded unit.
-/

namespace Unscript

namespace Encode

/-- The code and operation of a mnemonic. -/
def encodingOf (d : Dialect) (mnemonic : String) : Except EncodeError (Nat × Operation) :=
  match d.encoding? mnemonic with
  | some e => .ok e
  | none => .error (.notEncodable mnemonic d.id)

/-- Checks the count of operands. -/
def checkCount (op : Operation) (given : Nat) : Except EncodeError Unit :=
  if given = op.operands.length then .ok ()
  else .error (.operandCount op.mnemonic op.operands.length given)

/-- Writes one instruction. -/
def instruction (d : Dialect) (mnemonic : String) (operands : List Int) :
    Except EncodeError (List UInt8) := do
  let (code, op) ← encodingOf d mnemonic
  checkCount op operands.length
  let head ← Bytes.ofUInt? code d.opcodeWidth
  let fields ← (op.operands.zip operands).mapM fun (kind, value) =>
    Bytes.ofUInt? value (d.operandWidth kind)
  pure (head ++ fields.flatten)

/-- Writes a stream of instructions. -/
def instructions (d : Dialect) (is : List Instruction) : Except EncodeError (List UInt8) := do
  let parts ← is.mapM fun i => instruction d i.mnemonic (i.operands.map fun (n : Nat) => (n : Int))
  pure parts.flatten

/-- Writes a constant after its tag. -/
def constantBody (d : Dialect) : Constant → Except EncodeError (List UInt8)
  | .nil => .ok []
  | .bool b => Bytes.ofUInt? (if b then 1 else 0) 1
  | .int n => Bytes.ofSInt? n d.constants.intWidth
  | .float x => Bytes.ofFloat? x d.constants.floatWidth
  | .string s | .resource s => Bytes.ofText? s
  | .subscript i => Bytes.ofUInt? i 2
  | .foreign kind => .error (.unknownKind kind)

/-- Writes a constant. -/
def constant (d : Dialect) (c : Constant) : Except EncodeError (List UInt8) := do
  match d.constants.tagOf? c.kindName with
  | none => .error (.untagged c.kindName)
  | some tag =>
    let head ← Bytes.ofUInt? tag 1
    let body ← constantBody d c
    pure (head ++ body)

/-- Writes the header of a function. -/
def header (d : Dialect) (h : Header) : Except EncodeError (List UInt8) := do
  let name ← Bytes.ofText? h.name
  let arguments ← Bytes.ofUInt? h.arguments 1
  let locals ← Bytes.ofUInt? h.locals (d.operandWidth .slot)
  let stack ← Bytes.ofUInt? h.stack (d.operandWidth .count)
  let named := !h.localNames.isEmpty
  let flags ← Bytes.ofUInt?
    ((if named then Decode.localNamesFlag else 0) + (if h.isStatic then Decode.staticFlag else 0)) 1
  if named && h.localNames.length != h.locals then .error .localNames
  let names ← h.localNames.mapM Bytes.ofText?
  pure (name ++ arguments ++ locals ++ stack ++ flags ++ names.flatten)

/-- Writes one entry of the line table. -/
def lineEntry (d : Dialect) (e : Nat × Nat) : Except EncodeError (List UInt8) := do
  let offset ← Bytes.ofUInt? e.1 (d.operandWidth .jump)
  let line ← Bytes.ofUInt? e.2 d.lineWidth
  pure (offset ++ line)

/-- Writes the line table, if the dialect has one. -/
def lineTable (d : Dialect) (lines : List (Nat × Nat)) : Except EncodeError (List UInt8) := do
  if d.lineWidth = 0 then pure []
  else
    let count ← Bytes.ofUInt? lines.length (d.operandWidth .count)
    let entries ← lines.mapM (lineEntry d)
    pure (count ++ entries.flatten)

/-- Writes a function. -/
def function (d : Dialect) (r : FunctionRecord) : Except EncodeError (List UInt8) := do
  let head ← header d r.header
  let count ← Bytes.ofUInt? r.constants.length (d.operandWidth .constant)
  let pool ← r.constants.mapM (constant d)
  let length ← Bytes.ofUInt? r.code.length 4
  let lines ← lineTable d r.lines
  pure (head ++ count ++ pool.flatten ++ length ++ r.code ++ lines)

/-- Writes the name of the class, which not every dialect can record. -/
def className (d : Dialect) (name : String) : Except EncodeError (List UInt8) :=
  if d.supports "class_name" then Bytes.ofText? name
  else if name.isEmpty then .ok []
  else .error (.className d.id)

/-- Writes a payload. -/
def script? (d : Dialect) (functions : List FunctionRecord) (baseClass name : String := "") :
    Except EncodeError (List UInt8) := do
  let count ← Bytes.ofUInt? functions.length (d.operandWidth .count)
  let base ← Bytes.ofText? baseClass
  let name ← className d name
  let bodies ← functions.mapM (function d)
  pure (count ++ base ++ name ++ bodies.flatten)

/-- Writes a unit as a container. -/
def container? (d : Dialect) (functions : List FunctionRecord) (baseClass name : String := "") :
    Except EncodeError Container := do
  let payload ← script? d functions baseClass name
  pure ⟨Bytes.ofString d.tag, payload, some d.format, Container.anonymous⟩

end Encode

/-- A decoded function, ready to be written. -/
def Function.record (d : Dialect) (f : Function) : Except EncodeError FunctionRecord := do
  let code ← Encode.instructions d f.instructions
  pure ⟨f.header, f.constants, code, f.lines⟩

/-- Writes the payload of a unit that was decoded to its end. -/
def Script.encode? (s : Script) : Except EncodeError (List UInt8) := do
  if !s.complete then .error .incomplete
  let records ← s.functions.mapM (Function.record s.dialect)
  Encode.script? s.dialect records s.baseClass s.className

end Unscript
