import Unscript.Source.Unit

/-!
# Calls that writing nests

Expressions and nodes are written by routines that call themselves for their parts. A host bounds how
many calls may be nested. Counted are the calls that lie on a way back to the same routine, from the
first of them on. To find out which locals a body uses takes fewer calls than to write it.

* `Expr.calls` counts the calls that writing an expression nests.
* `Source.Writer.nodesCalls` counts those of nodes, `Source.functionCalls` those of a function.
-/

namespace Unscript

mutual

/-- The calls nested by writing an expression. An operand is written by way of the routine that puts
it into parentheses, an item of a dictionary by way of the list of all, and an argument by way of the
list of all and the routine for such lists. -/
def Expr.calls : Expr → Nat
  | .attr obj _ => 2 + obj.calls
  | .index obj key => 2 + max obj.calls key.calls
  | .binary _ left right => 2 + max left.calls right.calls
  | .unary _ operand => 2 + operand.calls
  | .cast value _ => 2 + value.calls
  | .method obj _ args => max (2 + obj.calls) (4 + Expr.callsAll args)
  | .group .dictionary items => 3 + Expr.callsAll items
  | .group _ items => 4 + Expr.callsAll items
  | _ => 1

/-- The calls nested by writing the deepest of some expressions. -/
def Expr.callsAll : List Expr → Nat
  | [] => 0
  | e :: es => max e.calls (Expr.callsAll es)

end

/-- The calls nested by writing a statement. -/
def Stmt.calls (s : Stmt) : Nat :=
  2 + Expr.callsAll s.exprs

namespace Source

namespace Writer

/-- The calls nested by writing the deepest of some statements. -/
def statementsCalls (ss : List Stmt) : Nat :=
  (ss.map Stmt.calls).foldl max 1

/-- The calls nested by writing code without structure. -/
def rawCalls (r : RawNode) : Nat :=
  2 + max (statementsCalls (r.statements.getD [])) (1 + Expr.callsAll r.value.toList)

mutual

/-- The calls nested by writing a node. A conditional or a match has a routine of its own. -/
def nodeCalls (w : Writer) : Node → Nat
  | .block b => 1 + statementsCalls b.statements
  | .sequence body => 1 + w.nodesCalls body
  | .ifElse _ condition whenTrue whenFalse =>
    2 + max (1 + condition.calls) (max (1 + w.nodesCalls whenTrue)
      (if w.chains whenFalse then w.chainedCalls whenFalse else 1 + w.nodesCalls whenFalse))
  | .whileLoop condition body _ => 1 + max (1 + condition.calls) (1 + w.nodesCalls body)
  | .forLoop _ _ iterable body setup latch =>
    1 + max (1 + iterable.calls) (max (w.nodesCalls body)
      (max (statementsCalls setup.statements) (statementsCalls latch.statements)))
  | .matching _ subject cases fallback _ =>
    2 + max (1 + subject.calls) (max (w.casesCalls cases) (w.fallbackCalls fallback))
  | .ret value _ => 1 + (1 + Expr.callsAll value.toList)
  | .leaveLoop | .nextTurn => 1
  | .raw r => 1 + rawCalls r

/-- The calls nested by writing nodes. -/
def nodesCalls (w : Writer) : List Node → Nat
  | [] => 1
  | n :: ns => max (1 + w.nodeCalls n) (w.nodesCalls ns)

/-- The calls nested by writing the conditional at the end of a false arm, chained to the one before:
its routine calls itself. -/
def chainedCalls (w : Writer) : List Node → Nat
  | [] => 0
  | [n] => w.nodeCalls n - 1
  | _ :: ns => w.chainedCalls ns

/-- The calls nested by writing the cases of a match. -/
def casesCalls (w : Writer) : List (Expr × List Node) → Nat
  | [] => 0
  | (pattern, body) :: rest =>
    max (1 + pattern.calls) (max (1 + w.nodesCalls body) (w.casesCalls rest))

/-- The calls nested by writing the case of a match for everything else. -/
def fallbackCalls (w : Writer) : Option (List Node) → Nat
  | none => 0
  | some body => 1 + w.nodesCalls body

end

end Writer

/-- The calls nested by writing the body of a function. -/
def functionCalls (style : Style) (h : Header) (pool : List Constant) (t : Tree) : Nat :=
  (writerOf style h pool t).nodesCalls t.body

end Source

end Unscript
