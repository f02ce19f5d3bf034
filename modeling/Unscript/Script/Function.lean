import Unscript.Bytes.Reader
import Unscript.Note
import Unscript.Script.Constant

/-!
# Functions of a compiled script

A function has a header, a pool of constants, a stream of instructions and, in most dialects, a
table of source lines. An instruction stands at an offset of the stream; jumps use the same
offsets.

* `Function` is a function as it was decoded. When decoding stopped early it keeps what was decoded
  and the error.
* `Script` is what was decoded of a whole unit, `Script.notes` the notes about its faults.
* `FunctionRecord` is a function ready to be written.
-/

namespace Unscript

/-- What is known of a function beside its code. -/
structure Header where
  index : Nat := 0
  name : String := ""
  arguments : Nat := 0
  locals : Nat := 0
  stack : Nat := 0
  isStatic : Bool := false
  localNames : List String := []
  deriving DecidableEq, Repr

/-- The name of a function; one without a name is known by its index. -/
def Header.displayName (h : Header) : String :=
  if h.name.isEmpty then s!"func_{h.index}" else h.name

/-- An instruction. `position` is its place in the payload. -/
structure Instruction where
  offset : Nat
  opcode : Nat
  mnemonic : String
  operands : List Nat
  kinds : List OperandKind
  size : Nat
  stackDelta : Int
  transfer : Transfer
  line : Option Nat := none
  position : Nat := 0
  deriving DecidableEq, Repr

namespace Instruction

/-- The offset just after the instruction. -/
def ending (i : Instruction) : Nat :=
  i.offset + i.size

/-- The operand at an index of the operands with one kind. -/
def operand? (i : Instruction) (kind : OperandKind) (nth : Nat := 0) : Option Nat :=
  (((i.operands.zip i.kinds).filter (·.2 == kind))[nth]?).map (·.1)

/-- The offset that the instruction may jump to. -/
def target? (i : Instruction) : Option Nat :=
  if i.kinds.contains .jump then i.operands[i.kinds.idxOf .jump]? else none

/-- Whether control can go elsewhere than to the next instruction. -/
def isBranch (i : Instruction) : Bool :=
  i.transfer.isBranch

end Instruction

/-- A function as it was decoded. -/
structure Function where
  header : Header
  constants : List Constant
  instructions : List Instruction
  codeOffset : Nat
  codeLength : Nat
  lines : List (Nat × Nat) := []
  error : Option DecodeError := none

namespace Function

/-- Whether the function was decoded to its end. -/
def complete (f : Function) : Bool :=
  f.error.isNone

/-- The name of the function. -/
def name (f : Function) : String :=
  f.header.displayName

end Function

/-- Why decoding a unit stopped, or what it found at the end. -/
inductive ScriptFault where
  | header (e : DecodeError)
  | framing (e : DecodeError)
  | overrun (e : DecodeError)
  | trailing (e : DecodeError)
  deriving DecidableEq, Repr

/-- The error of a fault. -/
def ScriptFault.error : ScriptFault → DecodeError
  | .header e | .framing e | .overrun e | .trailing e => e

/-- All that was decoded of a unit. -/
structure Script where
  dialect : Dialect
  baseClass : String := ""
  className : String := ""
  functionCount : Nat := 0
  functions : List Function := []
  fault : Option ScriptFault := none

namespace Script

/-- The error of the unit itself. -/
def error? (s : Script) : Option DecodeError :=
  s.fault.map (·.error)

/-- Whether the unit and all its functions were decoded to their ends. -/
def complete (s : Script) : Bool :=
  s.fault.isNone && s.functions.all (·.complete)

/-- The notes about functions decoded in part and about a function that could not be framed. -/
def notes (s : Script) : List Note :=
  let parts := s.functions.filterMap fun f => f.error.map fun e =>
    (⟨.debug, .decoding, s!"function {f.name} decoded partially: {e.message}"⟩ : Note)
  match s.fault with
  | some (.framing e) =>
    let place := Text.hexOffset e.offset
    parts ++ [⟨.debug, .decoding,
      s!"function {s.functions.length} framing broken at {place}: {e.message}"⟩]
  | _ => parts

end Script

/-- A function ready to be written. -/
structure FunctionRecord where
  header : Header
  constants : List Constant
  code : List UInt8
  lines : List (Nat × Nat) := []

end Unscript
