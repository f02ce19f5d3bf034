import Unscript.Proofs.Lifting.Steady
import Unscript.Proofs.Script.Commands

/-!
# A ledger of instructions

Which instruction made which value can be told without lifting: the table of operations says how
many values each instruction takes, so going through a block one keeps, for every value on the
stack, the tree of the instructions that it is made by. An expression is made by such a tree if its
nodes are spelled by the instructions of the tree, one by one.

* `Instruction.role`: what an instruction is for.
* `Derivation`: an instruction with those that made the values it takes.
* `Ledger`: the trees of the values on the stack, of the instructions that act, and of the ending.
* `Expr.command?`, `Stmt.command?`: the command that a node or a statement is spelled by.
* `Derivation.Makes`, `Derivation.Acts`, `Derivation.Ends`: what a tree of instructions makes.

Results:
* `Derivation.Makes.nodes`: the nodes of an expression are spelled by the instructions of its tree.
* `Registry.width_of_mem`: the table of operations gives the counts of operands.
* `Instruction.Exact.records`: what an instruction makes of the values that it takes.
-/

namespace Unscript

/-! ## Trees of instructions -/

/-- What an instruction is for in its block: nothing, or it makes a value, makes a statement, or
takes the value for the ending. -/
inductive Role where
  | silent
  | value
  | act
  | ending
  deriving DecidableEq, Repr

/-- What the instructions with a mnemonic are for. -/
def Role.ofMnemonic (m : String) : Role :=
  if m ∈ ["NOP", "JUMP", "ITER_NEXT"] then .silent
  else if m ∈ ["STORE_LOCAL", "STORE_MEMBER", "SET_ATTR", "SET_INDEX", "POP", "ASSERT",
    "BREAKPOINT"] then .act
  else if m ∈ ["JUMP_IF_TRUE", "JUMP_IF_FALSE", "ITER_BEGIN", "RETURN"] then .ending
  else .value

/-- What an instruction is for. -/
def Instruction.role (i : Instruction) : Role :=
  .ofMnemonic i.mnemonic

/-- An instruction and the trees of the values that it takes, the deepest first. -/
inductive Derivation where
  | of (i : Instruction) (taken : List Derivation)

namespace Derivation

def instruction : Derivation → Instruction
  | .of i _ => i

def taken : Derivation → List Derivation
  | .of _ taken => taken

/-- All instructions of a tree, outermost first and from left to right. -/
def walk : Derivation → List Instruction
  | .of i taken => i :: walkAll taken
where
  walkAll : List Derivation → List Instruction
  | [] => []
  | t :: ts => t.walk ++ walkAll ts

theorem walkAll_eq_flatMap (ts : List Derivation) : walk.walkAll ts = ts.flatMap walk := by
  induction ts with
  | nil => rfl
  | cons t ts ih => rw [walk.walkAll, List.flatMap_cons, ih]

end Derivation

/-- The trees of the values on the stack, its top first, of the instructions that made statements,
and of those that took the value for the ending. -/
structure Ledger where
  stack : List Derivation := []
  acts : List Derivation := []
  endings : List Derivation := []

namespace Ledger

/-- Keeps an instruction: it takes as many values as the table of operations says. -/
def step (d : Dialect) (g : Ledger) (i : Instruction) : Ledger :=
  let n := (d.pops i).toNat
  let made : Derivation := .of i (g.stack.take n).reverse
  let g := { g with stack := g.stack.drop n }
  match i.role with
  | .silent => g
  | .value => { g with stack := made :: g.stack }
  | .act => { g with acts := g.acts ++ [made] }
  | .ending => { g with endings := g.endings ++ [made] }

/-- The ledger of a block. -/
def ofInstructions (d : Dialect) (is : List Instruction) : Ledger :=
  is.foldl (step d) {}

/-- The trees of all values, those that statements took, those on the stack from the deepest on, and
those taken for the ending. -/
def values (g : Ledger) : List Derivation :=
  g.acts.flatMap Derivation.taken ++ g.stack.reverse ++ g.endings.flatMap Derivation.taken

/-- All instructions that made these values. -/
def parts (g : Ledger) : List Instruction :=
  g.values.flatMap Derivation.walk

end Ledger

/-! ## What is made -/

/-- The command that the outermost node of an expression is spelled by. -/
def Expr.command? : Expr → Option Command
  | .const k => some ⟨"LOAD_CONST", [k]⟩
  | .bool _ => none
  | .slot k => some ⟨"LOAD_LOCAL", [k]⟩
  | .self => some ⟨"LOAD_SELF", []⟩
  | .member name => some ⟨"LOAD_MEMBER", [name]⟩
  | .global name => some ⟨"LOAD_GLOBAL", [name]⟩
  | .attr _ name => some ⟨"GET_ATTR", [name]⟩
  | .index _ _ => some ⟨"GET_INDEX", []⟩
  | .binary op _ _ => some ⟨op.mnemonic, []⟩
  | .unary op _ => some ⟨op.mnemonic, []⟩
  | .cast _ name => some ⟨"AS", [name]⟩
  | .method _ name args => some ⟨"CALL_METHOD", [name, args.length]⟩
  | .group (.builtin k) args => some ⟨"CALL_BUILTIN", [k, args.length]⟩
  | .group (.call name) args => some ⟨"CALL_SELF", [name, args.length]⟩
  | .group .array items => some ⟨"MAKE_ARRAY", [items.length]⟩
  | .group .dictionary items => some ⟨"MAKE_DICT", [items.length / 2]⟩
  | .group .yield args => some ⟨"YIELD", [args.length]⟩

namespace Stmt

/-- The command that a statement is spelled by. A value left on the stack is not, nor is a
declaration. -/
def command? : Stmt → Option Command
  | .assign (.slot k) _ _ false => some ⟨"STORE_LOCAL", [k]⟩
  | .assign (.member name) _ _ false => some ⟨"STORE_MEMBER", [name]⟩
  | .assign (.attr _ name) _ _ false => some ⟨"SET_ATTR", [name]⟩
  | .assign (.index _ _) _ _ false => some ⟨"SET_INDEX", []⟩
  | .expr _ _ false => some ⟨"POP", []⟩
  | .assert _ _ => some ⟨"ASSERT", []⟩
  | .breakpoint _ => some ⟨"BREAKPOINT", []⟩
  | _ => none

/-- The values that a statement takes, the deepest first. -/
def taken : Stmt → List Expr
  | .assign (.attr obj _) value _ _ => [obj, value]
  | .assign (.index obj key) value _ _ => [obj, key, value]
  | .assign _ value _ _ => [value]
  | .expr e _ _ => [e]
  | .assert test _ => [test]
  | .breakpoint _ => []

def offset : Stmt → Nat
  | .assign _ _ offset _ | .expr _ offset _ | .assert _ offset | .breakpoint offset => offset

end Stmt

namespace Derivation

/-- **An expression is made** by a tree: its outermost node is spelled by the instruction, and what
it is made of is made by the trees of the values that the instruction takes. -/
inductive Makes : Derivation → Expr → Prop where
  | node {i : Instruction} {ts : List Derivation} {e : Expr} (command : e.command? = some i.command)
    (parts : List.Forall₂ Makes ts e.children) : Makes (.of i ts) e

/-- A statement is made by a tree: it is spelled by the instruction, has its offset, and takes what
the instruction takes. -/
structure Acts (t : Derivation) (stmt : Stmt) : Prop where
  command : stmt.command? = some t.instruction.command
  offset : stmt.offset = t.instruction.offset
  parts : List.Forall₂ Makes t.taken stmt.taken

/-- An instruction takes one value for the ending. -/
def Ends (t : Derivation) (e : Expr) : Prop :=
  List.Forall₂ Makes t.taken [e]

/-- The nodes of an expression and the instructions that they are spelled by. -/
abbrev Spelled (i : Instruction) (e : Expr) : Prop :=
  e.command? = some i.command

mutual

/-- **The nodes** of an expression are spelled by the instructions of its tree, one by one. -/
theorem Makes.nodes : ∀ {t : Derivation} {e : Expr}, t.Makes e →
    List.Forall₂ Spelled t.walk e.walk
  | .of i ts, e, h => by
    obtain ⟨command, parts⟩ := h
    rw [Expr.walk_eq_cons, walk]
    exact .cons command (Makes.allNodes parts)

theorem Makes.allNodes : ∀ {ts : List Derivation} {es : List Expr}, List.Forall₂ Makes ts es →
    List.Forall₂ Spelled (walk.walkAll ts) (es.flatMap Expr.walk)
  | [], _, .nil => .nil
  | _ :: _, _, .cons h hs => List.rel_append (Makes.nodes h) (Makes.allNodes hs)

end

end Derivation

/-! ## One instruction -/

namespace Action

/-- What the instructions with an action are for. -/
def role : Action → Role
  | .nothing => .silent
  | .storeSlot | .storeMember | .setAttr | .setIndex | .drop | .assert | .breakpoint => .act
  | .consume => .ending
  | _ => .value

theorem ofMnemonic_eq_role (a : Action) : ∀ m ∈ a.mnemonics, Role.ofMnemonic m = a.role := by
  cases a with
  | binary op | unary op => cases op <;> decide
  | _ => decide

/-- How many operands the operations of an action have, if it makes a value or a statement. -/
def width? : Action → Option Nat
  | .nothing | .consume => none
  | .loadSelf | .getIndex | .setIndex | .binary _ | .unary _ | .drop | .assert | .breakpoint =>
    some 0
  | .callBuiltin | .callMethod | .callSelf => some 2
  | _ => some 1

end Action

/-- **The table of operations** gives the counts of operands. -/
theorem Registry.width_of_mem : ∀ op ∈ knownOperations, ∀ a ∈ Action.ofMnemonic? op.mnemonic,
    ∀ n ∈ a.width?, op.operands.length = n := by
  decide +kernel

/-- A product that keeps account of an instruction and the values it takes. -/
def Product.Records (i : Instruction) (args : List Expr) : Product → Prop
  | .nothing => i.role = .silent ∧ args = []
  | .push e => i.role = .value ∧ e.command? = some i.command ∧ e.children = args
  | .act stmt => i.role = .act ∧ stmt.command? = some i.command ∧ stmt.taken = args ∧
    stmt.offset = i.offset
  | .value e => i.role = .ending ∧ args = [e]

namespace Instruction

variable {d : Dialect} {i : Instruction} {a : Action} {args : List Expr}

/-- An instruction with an action for its mnemonic, and no more operands than the action needs. -/
structure Exact (d : Dialect) (i : Instruction) (a : Action) : Prop extends i.Performs d a where
  width : ∀ n ∈ a.width?, i.operands.length = n

/-- Instructions of a registered dialect have no more operands than their actions need. -/
theorem Conforms.exists_exact (hd : d.Regular) {locals : Nat} {pool : List Constant}
    (h : i.Conforms d locals pool) : ∃ a, i.Exact d a := by
  obtain ⟨a, ha⟩ := h.exists_performs hd
  obtain ⟨op, hop, hmnemonic, hkinds, -⟩ := h.operation
  refine ⟨a, ha, fun n hn => ?_⟩
  rw [h.length, hkinds]
  exact Registry.width_of_mem op (hd.known hop) a (hmnemonic ▸ ha.action) n hn

theorem Exact.role_eq (hi : i.Exact d a) : i.role = a.role :=
  a.ofMnemonic_eq_role _ hi.name

/-- An instruction that takes the value for the ending can transfer control. -/
theorem Exact.isBranch (hi : i.Exact d a) (hrole : i.role = .ending) : i.isBranch = true := by
  refine hi.consumes ?_
  rw [hi.role_eq] at hrole
  cases a <;> first | rfl | cases hrole

/-- **What an instruction makes** keeps account of it and of the values that it takes. -/
theorem Exact.records (hi : i.Exact d a) (hargs : args.length = a.effect.taken i.operands) :
    (a.product i args).Records i args := by
  have hfits := Action.fits_of_length hi.takes hargs
  have hrole := hi.role_eq
  have hname := hi.name
  have hwidth := hi.width
  generalize hoperands : i.operands = operands at hfits hargs hwidth
  cases hfits <;>
    simp [Action.mnemonics, Action.width?, Action.effect, Effect.taken] at hname hargs hwidth <;>
    simp [Action.product, Product.Records, command, Expr.command?, Stmt.command?, Expr.children,
      Stmt.taken, Stmt.offset, hoperands, hrole, Action.role, hname, hwidth, hargs]

end Instruction

end Unscript
