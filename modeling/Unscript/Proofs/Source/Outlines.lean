import Unscript.Proofs.Source.Suites

/-!
# What bodies say

What a reader should find in the text of a body: the statements and constructs of its nodes, without
the blocks that they are from. The statements behind a turn of an iteration stand at the end of its
body; a local that is declared at the top stands before everything else, and a return at the end that
has nothing to say is left out.

* `Source.Writer.outlines`: what nodes say.
* `Source.Writer.bodyOutline`: what a body says.

Results:
* `Source.Writer.outlines_declared`: marking declarations does not change what nodes say.
-/

namespace Unscript

/-- A statement without the mark that it declares. -/
def Stmt.undeclared : Stmt → Stmt
  | .assign target value offset _ => .assign target value offset
  | s => s

namespace Source

/-- The text of an expression. -/
def Scope.exprText (s : Scope) (e : Expr) : String :=
  (s.expr e).toOption.getD ""

namespace Writer

variable (w : Writer)

/-- The text of a statement, whether or not it declares. -/
def statementText (stmt : Stmt) : String :=
  (w.statement stmt.undeclared).toOption.getD ""

/-- What the statements of a block say. -/
def statementOutlines (ss : List Stmt) : List Outline :=
  ss.map fun stmt => .statement (w.statementText stmt)

/-- What a return says. -/
def returned (value : Option Expr) : Option String :=
  if w.isBare value then none else value.map w.scope.exprText

/-- What an iteration is over. -/
def iterationHead (element : Nat) (iterable : Expr) : String :=
  w.scope.names.name element ++ " in " ++ w.scope.exprText iterable

/-- How the case for everything else is written. -/
def wildcard : String :=
  if w.scope.dialect.supports "wildcard" then "_" else "var _"

mutual

/-- What a node says. Statements of the blocks that test for a loop or a match stand before it. -/
def outline : Node → List Outline
  | .block b => w.statementOutlines b.statements
  | .sequence body => outlines body
  | .ifElse _ condition whenTrue whenFalse =>
    [.branch (w.scope.exprText condition) (outlines whenTrue) (outlines whenFalse)]
  | .whileLoop condition body header =>
    w.statementOutlines (header.toList.flatMap (·.statements)) ++
      [.loop (w.scope.exprText condition) (outlines body)]
  | .forLoop _ element iterable body setup latch =>
    w.statementOutlines setup.statements ++
      [.iteration (w.iterationHead element iterable)
        (outlines body ++ w.statementOutlines latch.statements)]
  | .matching _ subject cases fallback tests =>
    w.statementOutlines (tests.flatMap (·.statements)) ++
      [.choice (w.scope.exprText subject) (caseOutlines cases) (fallbackOutline fallback)]
  | .ret value _ => [.ret (w.returned value)]
  | .leaveLoop => [.leaveLoop]
  | .nextTurn => [.nextTurn]
  | .raw _ => []

/-- What nodes say. -/
def outlines : List Node → List Outline
  | [] => []
  | n :: ns => outline n ++ outlines ns

/-- What the cases of a match say. -/
def caseOutlines : List (Expr × List Node) → List (String × List Outline)
  | [] => []
  | (pattern, body) :: rest => (w.scope.exprText pattern, outlines body) :: caseOutlines rest

/-- What a match does for everything else. -/
def fallbackOutline : Option (List Node) → Option (List Outline)
  | none => none
  | some body => some (outlines body)

end

/-- What a body says: declarations at the top, and what is kept of it. -/
def bodyOutline (body : List Node) : List Outline :=
  ((hoisted w.scope.names.arguments body).map fun slot =>
    .declaration (w.scope.names.name slot)) ++ w.outlines (w.keptBody body)

variable {w} {arguments : Nat}

theorem outlines_append (a b : List Node) : w.outlines (a ++ b) = w.outlines a ++ w.outlines b := by
  induction a with
  | nil => rw [outlines]; rfl
  | cons n a ih => rw [List.cons_append, outlines, outlines, ih, List.append_assoc]

theorem outlines_singleton (n : Node) : w.outlines [n] = w.outline n := by
  rw [outlines, outlines, List.append_nil]

/-- Blocks without statements say nothing. -/
theorem outlines_blanks {blanks : List BlockNode} (h : ∀ b ∈ blanks, b.statements = []) :
    w.outlines (blanks.map .block) = [] := by
  induction blanks with
  | nil => rw [List.map_nil, outlines]
  | cons b blanks ih =>
    obtain ⟨hb, h⟩ := List.forall_mem_cons.mp h
    rw [List.map_cons, outlines, outline, hb, ih h]
    rfl

/-! ## Declarations -/

theorem statementText_declaredStmt (seen : List Nat) (stmt : Stmt) :
    w.statementText (declaredStmt arguments seen stmt) = w.statementText stmt := by
  unfold declaredStmt
  split <;> rfl

theorem statementOutlines_declaredStmts (seen : List Nat) (ss : List Stmt) :
    w.statementOutlines (declaredStmts arguments seen ss) = w.statementOutlines ss := by
  unfold statementOutlines
  induction ss generalizing seen with
  | nil => rfl
  | cons stmt ss ih =>
    rw [declaredStmts, List.map_cons, List.map_cons, ih, statementText_declaredStmt]

mutual

theorem outline_declaredNode (seen : List Nat) (n : Node) :
    w.outline (declaredNode arguments seen n) = w.outline n := by
  cases n with
  | block b => rw [declaredNode, outline, outline, statementOutlines_declaredStmts]
  | sequence body => rw [declaredNode, outline, outline, outlines_declared]
  | forLoop iterator element iterable body setup latch =>
    rw [declaredNode, outline, outline, statementOutlines_declaredStmts]
  | _ =>
    rw [declaredNode]
    all_goals nofun

/-- **Marking declarations** does not change what nodes say. -/
theorem outlines_declared (seen : List Nat) (ns : List Node) :
    w.outlines (declared arguments seen ns) = w.outlines ns := by
  cases ns with
  | nil => rw [declared]
  | cons n ns => rw [declared, outlines, outlines, outline_declaredNode, outlines_declared]

end

end Writer

end Source

end Unscript
