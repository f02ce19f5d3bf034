import Unscript.Tree.Node

/-!
# Declarations of locals

A local that is not an argument is declared once. When its first use, in the order of the text, is
an assignment outside every construct, the assignment declares it; when it is the element of an
iteration, the iteration does; otherwise it is declared at the top of the function.

* `Source.hoisted` are the slots declared at the top.
* `Source.declared` marks the assignments that declare their slots.
-/

namespace Unscript.Source

/-- How a slot is used first. -/
inductive Use where
  | assigned
  | iterated
  | other
  deriving DecidableEq, Repr

/-- The uses of a statement, in order. An assignment inside a construct declares nothing. -/
def stmtUses (top : Bool) (s : Stmt) : List (Nat × Use) :=
  s.reads.map (·, .other) ++
    match s.assigned? with
    | some slot => [(slot, if top then .assigned else .other)]
    | none => []

/-- The uses of statements, in order. -/
def stmtsUses (top : Bool) (ss : List Stmt) : List (Nat × Use) :=
  ss.flatMap (stmtUses top)

/-- The uses of an expression. -/
def exprUses (e : Expr) : List (Nat × Use) :=
  e.slotsRead.map (·, .other)

mutual

/-- The uses of a node, in order. -/
def nodeUses (top : Bool) : Node → List (Nat × Use)
  | .block b => stmtsUses top b.statements
  | .sequence body => nodesUses top body
  | .ifElse _ condition whenTrue whenFalse =>
    exprUses condition ++ nodesUses false whenTrue ++ nodesUses false whenFalse
  | .whileLoop condition body _ => exprUses condition ++ nodesUses false body
  | .forLoop _ element iterable body setup latch =>
    stmtsUses top setup.statements ++ exprUses iterable ++ [(element, .iterated)] ++
      nodesUses false body ++ stmtsUses false latch.statements
  | .matching _ subject cases fallback _ =>
    exprUses subject ++ casesUses cases ++ fallbackUses fallback
  | .ret (some value) _ => exprUses value
  | .ret none _ | .leaveLoop | .nextTurn | .raw _ => []

/-- The uses of nodes, in order. -/
def nodesUses (top : Bool) : List Node → List (Nat × Use)
  | [] => []
  | n :: ns => nodeUses top n ++ nodesUses top ns

/-- The uses of the bodies of cases, in order. -/
def casesUses : List (Expr × List Node) → List (Nat × Use)
  | [] => []
  | (_, body) :: rest => nodesUses false body ++ casesUses rest

/-- The uses of a body that may be absent. -/
def fallbackUses : Option (List Node) → List (Nat × Use)
  | none => []
  | some body => nodesUses false body

end

/-- The slots from `arguments` on that are declared at the top, in ascending order. -/
def hoisted (arguments : Nat) (body : List Node) : List Nat :=
  let uses := nodesUses true body
  let slots := ((uses.map (·.1)).filter (arguments ≤ ·)).eraseDups.mergeSort
  slots.filter fun slot => uses.lookup slot == some .other

/-- Marks a statement outside every construct if it declares its slot; `seen` are the slots used
before it. -/
def declaredStmt (arguments : Nat) (seen : List Nat) (s : Stmt) : Stmt :=
  match s, s.assigned? with
  | .assign target value offset _, some slot =>
    .assign target value offset (arguments ≤ slot && !(seen ++ s.reads).contains slot)
  | s, _ => s

/-- Marks the statements that declare their slots. -/
def declaredStmts (arguments : Nat) : (seen : List Nat) → List Stmt → List Stmt
  | _, [] => []
  | seen, s :: rest =>
    declaredStmt arguments seen s ::
      declaredStmts arguments (seen ++ (stmtUses true s).map (·.1)) rest

mutual

/-- Marks the statements of a node that declare their slots. -/
def declaredNode (arguments : Nat) (seen : List Nat) : Node → Node
  | .block b => .block { b with statements := declaredStmts arguments seen b.statements }
  | .sequence body => .sequence (declared arguments seen body)
  | .forLoop iterator element iterable body setup latch =>
    .forLoop iterator element iterable body
      { setup with statements := declaredStmts arguments seen setup.statements } latch
  | n => n

/-- Marks the statements outside every construct that declare their slots. -/
def declared (arguments : Nat) (seen : List Nat) : List Node → List Node
  | [] => []
  | n :: ns =>
    declaredNode arguments seen n ::
      declared arguments (seen ++ (nodeUses true n).map (·.1)) ns

end

end Unscript.Source
