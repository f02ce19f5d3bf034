/-!
# Operations of the stack machine

An operation has a mnemonic, operands of fixed kinds, a stack effect and a way to transfer
control. Some operations pop as many values as an operand says, or a multiple of it.

* `Operation.stackPops` and `Operation.stackDelta` are the stack effect for given operands.
-/

namespace Unscript

/-- What an operand refers to. -/
inductive OperandKind where
  | constant
  | slot
  | name
  | builtin
  | argc
  | count
  | jump
  deriving DecidableEq, Repr

namespace OperandKind

/-- All kinds, in the order in which tables list them. -/
def all : List OperandKind := [.constant, .slot, .name, .builtin, .argc, .count, .jump]

/-- The word for a kind in tables and messages. -/
def text : OperandKind → String
  | .constant => "const"
  | .slot => "local"
  | .name => "name"
  | .builtin => "builtin"
  | .argc => "argc"
  | .count => "count"
  | .jump => "jump"

/-- The kind of a word. -/
def ofText? (s : String) : Option OperandKind :=
  all.find? fun k => k.text == s

theorem ofText?_text (k : OperandKind) : ofText? k.text = some k := by
  cases k <;> decide

end OperandKind

/-- Where control goes after an operation. -/
inductive Transfer where
  | next
  | jump
  | branchTrue
  | branchFalse
  | iterBegin
  | iterNext
  | ret
  deriving DecidableEq, Repr

namespace Transfer

/-- All ways, in the order in which tables list them. -/
def all : List Transfer := [.next, .jump, .branchTrue, .branchFalse, .iterBegin, .iterNext, .ret]

/-- The word for a way in tables. -/
def text : Transfer → String
  | .next => "next"
  | .jump => "jump"
  | .branchTrue => "branch_true"
  | .branchFalse => "branch_false"
  | .iterBegin => "iter_begin"
  | .iterNext => "iter_next"
  | .ret => "return"

/-- The way of a word. -/
def ofText? (s : String) : Option Transfer :=
  all.find? fun t => t.text == s

/-- Whether control can go elsewhere than to the next instruction. -/
def isBranch (t : Transfer) : Bool :=
  t != .next

theorem ofText?_text (t : Transfer) : ofText? t.text = some t := by
  cases t <;> decide

end Transfer

/-- An operation: its operands, its stack effect, and its transfer of control. `variadic` lists the
operand kinds whose value, times a factor, is popped in addition to `pops`. -/
structure Operation where
  mnemonic : String
  operands : List OperandKind
  pops : Int
  pushes : Int
  variadic : List (OperandKind × Int)
  transfer : Transfer
  deriving DecidableEq, Repr

namespace Operation

/-- Whether the operands say how much is popped: each variadic kind has its operand. -/
def covers (op : Operation) (operands : List Nat) : Bool :=
  op.variadic.all fun v => op.operands.idxOf v.1 < operands.length

/-- How many values the operation pops for its operands. -/
def stackPops (op : Operation) (operands : List Nat) : Int :=
  op.variadic.foldl (fun total v => total + (operands[op.operands.idxOf v.1]?).getD 0 * v.2) op.pops

/-- How much higher the stack is after the operation. -/
def stackDelta (op : Operation) (operands : List Nat) : Int :=
  op.pushes - op.stackPops operands

end Operation

end Unscript
