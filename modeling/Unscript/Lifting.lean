import Unscript.Diagnostic
import Unscript.Script.Function
import Unscript.Tree.Stmt

/-!
# Lifting blocks

The instructions of a block are run on a stack of expressions instead of values. Instructions that
only compute leave an expression on the stack; those that act turn expressions into statements.

* `Symbolic.step` runs one instruction.
* `Lifted.ofInstructions` runs a block. The value is what its ending tests, iterates or returns;
  values left on the stack become statements at the end.
-/

namespace Unscript

/-- What an operation does to the stack of expressions. -/
inductive Action where
  | nothing
  | loadConst
  | loadSlot
  | loadSelf
  | loadMember
  | loadGlobal
  | storeSlot
  | storeMember
  | getAttr
  | setAttr
  | getIndex
  | setIndex
  | binary (op : BinaryOp)
  | unary (op : UnaryOp)
  | cast
  | callBuiltin
  | callMethod
  | callSelf
  | makeArray
  | makeDictionary
  | yield
  | drop
  | assert
  | breakpoint
  | consume
  deriving DecidableEq, Repr

namespace Action

/-- The actions of operations that apply no operator, by their mnemonics in lower case. -/
def named : List (String × Action) :=
  [("nop", .nothing), ("load_const", .loadConst), ("load_local", .loadSlot),
    ("store_local", .storeSlot), ("load_self", .loadSelf), ("load_member", .loadMember),
    ("store_member", .storeMember), ("load_global", .loadGlobal), ("get_attr", .getAttr),
    ("set_attr", .setAttr), ("get_index", .getIndex), ("set_index", .setIndex), ("as", .cast),
    ("call_builtin", .callBuiltin), ("call_method", .callMethod), ("call_self", .callSelf),
    ("make_array", .makeArray), ("make_dict", .makeDictionary), ("yield", .yield), ("pop", .drop),
    ("assert", .assert), ("breakpoint", .breakpoint), ("jump", .nothing),
    ("jump_if_true", .consume), ("jump_if_false", .consume), ("iter_begin", .consume),
    ("iter_next", .nothing), ("return", .consume)]

/-- The action of a mnemonic. -/
def ofMnemonic? (m : String) : Option Action :=
  ((BinaryOp.ofMnemonic? m).map .binary).or <|
    ((UnaryOp.ofMnemonic? m).map .unary).or (named.lookup m.toLower)

end Action

/-- Why a block cannot be lifted. The last three do not arise with the operations of the standard
dialects: an operation without an action, or with other operands than its action takes. -/
inductive LiftFault where
  | unsupported (i : Instruction) (feature : String) (block : Nat)
  | underflow (i : Instruction) (block : Nat)
  | noAction
  | noOperand
  | operandCount
  deriving DecidableEq, Repr

namespace LiftFault

/-- The report of a fault. -/
def diagnostic? : LiftFault → Option Diagnostic
  | .unsupported i feature block =>
    let name := Text.quoted feature
    some {
      kind := "UnsupportedConstruct"
      message := s!"{i.mnemonic} requires feature {name} which this version lacks"
      offset := some i.position
      block := some block }
  | .underflow i block =>
    let place := Text.hexOffset i.offset
    some {
      kind := "ReconstructError"
      message := s!"stack underflow in {i.mnemonic} at {place} (block {block})"
      offset := some i.position
      block := some block }
  | _ => none

/-- The message of a fault. -/
def message (e : LiftFault) : String :=
  (e.diagnostic?.map (·.message)).getD ""

end LiftFault

/-- A stack of expressions, its top first, with the statements made so far and the value taken for
the ending of the block. -/
structure Symbolic where
  stack : List Expr := []
  statements : List Stmt := []
  value : Option Expr := none

namespace Symbolic

/-- Puts an expression on the stack. -/
def push (s : Symbolic) (e : Expr) : Symbolic :=
  { s with stack := e :: s.stack }

/-- Makes a statement. -/
def act (s : Symbolic) (stmt : Stmt) : Symbolic :=
  { s with statements := s.statements ++ [stmt] }

/-- Takes some expressions from the stack, the deepest first. -/
def pop? (s : Symbolic) (n : Nat) : Option (List Expr × Symbolic) :=
  if n ≤ s.stack.length then
    some ((s.stack.take n).reverse, { s with stack := s.stack.drop n })
  else none

/-- Runs an action with operands at an offset. A fault is named without its place. -/
def run (s : Symbolic) (a : Action) (i : Instruction) (block : Nat) : Except LiftFault Symbolic :=
  let under : LiftFault := .underflow i block
  let first : Except LiftFault Nat := i.operands[0]?.elim (.error .noOperand) .ok
  let both : Except LiftFault (Nat × Nat) :=
    match i.operands with
    | [a, b] => .ok (a, b)
    | _ => .error .operandCount
  let pop (n : Nat) : Except LiftFault (List Expr × Symbolic) :=
    (s.pop? n).elim (.error under) .ok
  let one : Except LiftFault (Expr × Symbolic) :=
    match s.stack with
    | a :: rest => .ok (a, { s with stack := rest })
    | [] => .error under
  let two : Except LiftFault (Expr × Expr × Symbolic) :=
    match s.stack with
    | b :: a :: rest => .ok (a, b, { s with stack := rest })
    | _ => .error under
  let three : Except LiftFault (Expr × Expr × Expr × Symbolic) :=
    match s.stack with
    | c :: b :: a :: rest => .ok (a, b, c, { s with stack := rest })
    | _ => .error under
  match a with
  | .nothing => pure s
  | .loadConst => return s.push (.const (← first))
  | .loadSlot => return s.push (.slot (← first))
  | .loadSelf => return s.push .self
  | .loadMember => return s.push (.member (← first))
  | .loadGlobal => return s.push (.global (← first))
  | .storeSlot => do
    let (value, s) ← one
    return s.act (.assign (.slot (← first)) value i.offset)
  | .storeMember => do
    let (value, s) ← one
    return s.act (.assign (.member (← first)) value i.offset)
  | .getAttr => do
    let (obj, s) ← one
    return s.push (.attr obj (← first))
  | .setAttr => do
    let (obj, value, s) ← two
    return s.act (.assign (.attr obj (← first)) value i.offset)
  | .getIndex => do
    let (obj, key, s) ← two
    return s.push (.index obj key)
  | .setIndex => do
    let (obj, key, value, s) ← three
    return s.act (.assign (.index obj key) value i.offset)
  | .binary op => do
    let (left, right, s) ← two
    return s.push (.binary op left right)
  | .unary op => do
    let (operand, s) ← one
    return s.push (.unary op operand)
  | .cast => do
    let (value, s) ← one
    return s.push (.cast value (← first))
  | .callBuiltin => do
    let (index, argc) ← both
    let (args, s) ← pop argc
    return s.push (.group (.builtin index) args)
  | .callMethod => do
    let (name, argc) ← both
    match ← pop (argc + 1) with
    | (obj :: args, s) => return s.push (.method obj name args)
    | ([], _) => .error under
  | .callSelf => do
    let (name, argc) ← both
    let (args, s) ← pop argc
    return s.push (.group (.call name) args)
  | .makeArray => do
    let (items, s) ← pop (← first)
    return s.push (.group .array items)
  | .makeDictionary => do
    let (items, s) ← pop (2 * (← first))
    return s.push (.group .dictionary items)
  | .yield => do
    let (args, s) ← pop (← first)
    return s.push (.group .yield args)
  | .drop => do
    let (e, s) ← one
    return s.act (.expr e i.offset)
  | .assert => do
    let (test, s) ← one
    return s.act (.assert test i.offset)
  | .breakpoint => return s.act (.breakpoint i.offset)
  | .consume => do
    let (value, s) ← one
    return { s with value := some value }

/-- Runs an instruction of a block. An operation of a feature that the dialect lacks is not run. -/
def step (d : Dialect) (block : Nat) (s : Symbolic) (i : Instruction) :
    Except LiftFault Symbolic :=
  match d.missingFeature? i.mnemonic with
  | some feature => .error (.unsupported i feature block)
  | none =>
    match Action.ofMnemonic? i.mnemonic with
    | some a => s.run a i block
    | none => .error .noAction

end Symbolic

/-- A lifted block: its statements, the value for its ending, and how many of its last statements
are values left on the stack. -/
structure Lifted where
  statements : List Stmt := []
  value : Option Expr := none
  residue : Nat := 0
  deriving DecidableEq, Repr

namespace Lifted

/-- The statements for the values left on the stack, the deepest first. -/
def residueOf (stack : List Expr) (is : List Instruction) : List Stmt :=
  let offset := (is.getLast?.map (·.offset)).getD 0
  stack.reverse.map fun e => .expr e offset true

/-- The end of a run. -/
def ofSymbolic (is : List Instruction) (s : Symbolic) : Lifted where
  statements := s.statements ++ residueOf s.stack is
  value := s.value
  residue := s.stack.length

/-- Lifts the instructions of a block. -/
def ofInstructions (d : Dialect) (block : Nat) (is : List Instruction) : Except LiftFault Lifted :=
  (is.foldlM (Symbolic.step d block) {}).map (ofSymbolic is)

/-- Whether the block only evaluates the value for its ending. -/
def isPureTest (l : Lifted) : Bool :=
  l.statements.isEmpty && l.value.isSome

/-- The notes about a lifted block. -/
def notes (l : Lifted) (block : Nat) : List Note :=
  if l.residue = 0 then []
  else [⟨.debug, .lifting, s!"block {block} leaves {l.residue} value(s) on the stack"⟩]

end Lifted

end Unscript
