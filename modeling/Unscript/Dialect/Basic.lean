import Unscript.Dialect.Operation
import Unscript.Text.Numeral

/-!
# Dialects of the bytecode

Every release of the compiler that changed the encoding speaks a dialect of its own: a numbering
of the operations, the width of every kind of operand, the layout of constants, the table of
builtin functions and the set of language features.

* `Dialect.operationAt?` and `Dialect.opcodeOf?` go from a code to its operation and back.
* `Dialect.isLegal` tells whether an operation may occur at all in a dialect that lacks some
  features.
-/

namespace Unscript

/-- A count of bytes that a field may take. -/
inductive Width where
  | one
  | two
  | four
  | eight
  deriving DecidableEq, Repr

namespace Width

/-- The count as a number. -/
def bytes : Width → Nat
  | .one => 1
  | .two => 2
  | .four => 4
  | .eight => 8

/-- How many values a field of the width has. -/
def values : Width → Nat
  | .one => 0x100
  | .two => 0x10000
  | .four => 0x100000000
  | .eight => 0x10000000000000000

/-- The width of a count of bytes. -/
def ofBytes? (n : Int) : Option Width :=
  if n = 1 then some .one
  else if n = 2 then some .two
  else if n = 4 then some .four
  else if n = 8 then some .eight
  else none

theorem bytes_pos (w : Width) : 0 < w.bytes := by
  cases w <;> decide

end Width

/-- The width of the opcode and of every kind of operand. `others` are widths that the dialect's
data gives under further names. -/
structure Widths where
  opcode : Width
  operand : OperandKind → Width
  others : List (String × Int)

/-- The kinds of constants. -/
inductive ConstantKind where
  | nil
  | bool
  | int
  | float
  | string
  | resource
  | subscript
  deriving DecidableEq, Repr

namespace ConstantKind

/-- All kinds, in the order in which tables list them. -/
def all : List ConstantKind := [.nil, .bool, .int, .float, .string, .resource, .subscript]

/-- The word for a kind. -/
def text : ConstantKind → String
  | .nil => "nil"
  | .bool => "bool"
  | .int => "int"
  | .float => "float"
  | .string => "string"
  | .resource => "resource"
  | .subscript => "subscript"

/-- The kind of a word. -/
def ofText? (s : String) : Option ConstantKind :=
  all.find? fun k => k.text == s

theorem ofText?_text (k : ConstantKind) : ofText? k.text = some k := by
  cases k <;> decide

end ConstantKind

/-- How constants are written: the widths of numbers, and the tag of each kind by name. -/
structure ConstantLayout where
  intWidth : Int
  floatWidth : Int
  tags : List (String × Int)
  deriving DecidableEq, Repr

namespace ConstantLayout

/-- The name of the first kind with a tag. -/
def nameOfTag? (l : ConstantLayout) (tag : Nat) : Option String :=
  (l.tags.find? fun t => t.2 == (tag : Int)).map (·.1)

/-- The tag of a kind. -/
def tagOf? (l : ConstantLayout) (kind : String) : Option Int :=
  l.tags.lookup kind

end ConstantLayout

/-- A dialect of the bytecode. `gates` names, for some mnemonics, the feature they belong to. -/
structure Dialect where
  id : String
  release : String
  date : String
  format : Int
  era : String
  engineMajor : Int
  variantMajor : Int
  summary : String
  opcodes : List (Option Operation)
  widths : Widths
  constants : ConstantLayout
  lineWidth : Int
  builtins : List String
  features : List String
  gates : List (String × String)

namespace Dialect

/-- The tag that the compiler writes into the header of a script. -/
def tag (d : Dialect) : String :=
  "V_" ++ d.id

/-- The id as a number, if it is one. -/
def commit? (d : Dialect) : Option Int :=
  Text.readInt? 16 d.id

/-- One line that describes the dialect. -/
def label (d : Dialect) : String :=
  s!"{d.release} ({d.id} / {d.date} / Bytecode version: {d.format})"

/-- Whether the dialect has a feature. -/
def supports (d : Dialect) (feature : String) : Bool :=
  d.features.contains feature

/-- The operation of a code. -/
def operationAt? (d : Dialect) (code : Nat) : Option Operation :=
  (d.opcodes[code]?).join

/-- Whether a numbered operation has the mnemonic. -/
def hasMnemonic (mnemonic : String) : Option Operation → Bool
  | some op => op.mnemonic == mnemonic
  | none => false

/-- The code of a mnemonic. -/
def opcodeOf? (d : Dialect) (mnemonic : String) : Option Nat :=
  d.opcodes.findIdx? (hasMnemonic mnemonic)

/-- The code and operation of a mnemonic. -/
def encoding? (d : Dialect) (mnemonic : String) : Option (Nat × Operation) := do
  let code ← d.opcodeOf? mnemonic
  let op ← d.operationAt? code
  pure (code, op)

/-- The feature that a mnemonic belongs to, if any. -/
def requiredFeature? (d : Dialect) (mnemonic : String) : Option String :=
  d.gates.lookup mnemonic

/-- The feature that the dialect lacks for a mnemonic, if any. -/
def missingFeature? (d : Dialect) (mnemonic : String) : Option String :=
  (d.requiredFeature? mnemonic).filter fun f => !d.supports f

/-- Whether the mnemonic may occur in the dialect. -/
def isLegal (d : Dialect) (mnemonic : String) : Bool :=
  (d.missingFeature? mnemonic).isNone

/-- The width of an operand in bytes. -/
def operandWidth (d : Dialect) (kind : OperandKind) : Nat :=
  (d.widths.operand kind).bytes

/-- The width of an opcode in bytes. -/
def opcodeWidth (d : Dialect) : Nat :=
  d.widths.opcode.bytes

/-- The size of an operation with its operands. -/
def instructionSize (d : Dialect) (op : Operation) : Nat :=
  op.operands.foldl (fun size kind => size + d.operandWidth kind) d.opcodeWidth

/-- The name of a builtin function. -/
def builtinName? (d : Dialect) (index : Nat) : Option String :=
  d.builtins[index]?

/-- The first index of a builtin function's name. -/
def builtinIndex? (d : Dialect) (name : String) : Option Nat :=
  d.builtins.findIdx? (· == name)

end Dialect

end Unscript
