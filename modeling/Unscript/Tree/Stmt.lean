import Unscript.Tree.Expr

/-!
# Statements

A statement stands for one instruction of a block and carries its offset. An expression statement
may also stand for a value that the block leaves on the stack.

* `Stmt.exprs` are the expressions of a statement, `Stmt.reads` the slots it reads before it
  assigns.
-/

namespace Unscript

/-- A statement. `declares` tells that an assignment is also the declaration of its target, and
`residue` that an expression is a value left on the stack. -/
inductive Stmt where
  | assign (target value : Expr) (offset : Nat) (declares : Bool := false)
  | expr (e : Expr) (offset : Nat) (residue : Bool := false)
  | assert (test : Expr) (offset : Nat)
  | breakpoint (offset : Nat)
  deriving DecidableEq, Repr

namespace Stmt

/-- The expressions of a statement. -/
def exprs : Stmt → List Expr
  | .assign target value _ _ => [target, value]
  | .expr e _ _ => [e]
  | .assert test _ => [test]
  | .breakpoint _ => []

/-- The slots that a statement reads, in order. The target of an assignment is read after its value,
unless it is a local itself. -/
def reads : Stmt → List Nat
  | .assign target value _ _ =>
    value.slotsRead ++ if target.slot?.isSome then [] else target.slotsRead
  | .expr e _ _ => e.slotsRead
  | .assert test _ => test.slotsRead
  | .breakpoint _ => []

/-- The slot of the local that a statement assigns. -/
def assigned? : Stmt → Option Nat
  | .assign target _ _ _ => target.slot?
  | _ => none

end Stmt

end Unscript
