import Unscript.Script.Listing
import Unscript.Source.Declarations
import Unscript.Source.Expr
import Unscript.Structuring.Structured

/-!
# Bodies as source text

Structured code is written line by line, every construct indented inside the one around it. Code
without structure is written as comments, with the names of the blocks where control goes on; a
block that such code jumps to is labelled by a comment.

* `Source.Content` is what a line says, `Source.Writer.contentText` its text.
* `Source.Writer.nodes` writes nodes at a depth.
* `Source.Writer.body` writes the body of a function with its declarations.
-/

namespace Unscript.Source

/-- The mark of a comment about code without structure. -/
def marker : String := "# gdre:"

/-- What a line says: a declaration at the top, a statement, the head of a construct or of a part of
it, a step out of one, or a comment. -/
inductive Content where
  | declaration (slot : Nat)
  | statement (s : Stmt)
  | test (word : String) (condition : Expr)
  | otherwise
  | iteration (element : Nat) (iterable : Expr)
  | subject (e : Expr)
  | pattern (e : Expr)
  | wildcard
  | ret (value : Option Expr)
  | leaveLoop
  | nextTurn
  | pass
  | label (id : Nat)
  | remark (text : String)
  deriving Repr

/-- A line: how deep it is indented, what it says, and its text without the indentation. -/
structure Line where
  depth : Nat
  content : Content
  text : String
  deriving Repr

/-- How nodes are written: what their expressions refer to, the indentation of one level, the blocks
to label, and the virtual block, if it is known. -/
structure Writer where
  scope : Scope
  indent : String
  targets : List Nat := []
  exit : Option Nat := none

/-- Lines of source text, or why there are none. -/
abbrev Lines := Except Fault (List Line)

/-- Whether a line of text holds more than a comment. -/
def isCode (line : String) : Bool :=
  match Text.strip line.toList with
  | [] => false
  | c :: _ => c != '#'

namespace Writer

/-- The indentation of a depth. -/
def pad (w : Writer) (depth : Nat) : String :=
  "".intercalate (List.replicate depth w.indent)

/-- The whole text of a line. -/
def render (w : Writer) (l : Line) : String :=
  w.pad l.depth ++ l.text

/-- Whether lines hold code. -/
def hasCode (w : Writer) (lines : List Line) : Bool :=
  lines.any fun l => isCode (w.render l)

/-- The name of a block. -/
def labelName (w : Writer) (id : Nat) : String :=
  if w.exit = some id then "end" else s!"block_{id}"

/-! ## Lines -/

/-- A statement. -/
def statement (w : Writer) (s : Stmt) : Except Fault String :=
  match s with
  | .assign target value _ declares => do
    let target ← w.scope.expr target
    let value ← w.scope.expr value
    return (if declares then "var " else "") ++ target ++ " = " ++ value
  | .expr e _ residue => do
    let text ← w.scope.expr e
    return if residue then text ++ "  " ++ marker ++ " value left on the stack" else text
  | .assert test _ => return "assert(" ++ (← w.scope.expr test) ++ ")"
  | .breakpoint _ => return "breakpoint"

/-- Whether a return has nothing to say: no value, or a literal null. -/
def isBareReturn (w : Writer) : Option Expr → Except Fault Bool
  | none => pure true
  | some (.const index) => return ((← w.scope.constant index) == .nil)
  | some _ => pure false

/-- A return. -/
def returning (w : Writer) (value : Option Expr) : Except Fault String := do
  if ← w.isBareReturn value then return "return"
  match value with
  | some e => return "return " ++ (← w.scope.expr e)
  | none => return "return"

/-- The text of what a line says. -/
def contentText (w : Writer) : Content → Except Fault String
  | .declaration slot => return "var " ++ w.scope.names.name slot
  | .statement s => w.statement s
  | .test word condition => return word ++ " " ++ (← w.scope.expr condition) ++ ":"
  | .otherwise => return "else:"
  | .iteration element iterable =>
    return "for " ++ w.scope.names.name element ++ " in " ++ (← w.scope.expr iterable) ++ ":"
  | .subject e => return "match " ++ (← w.scope.expr e) ++ ":"
  | .pattern e => return (← w.scope.expr e) ++ ":"
  | .wildcard => return (if w.scope.dialect.supports "wildcard" then "_" else "var _") ++ ":"
  | .ret value => w.returning value
  | .leaveLoop => return "break"
  | .nextTurn => return "continue"
  | .pass => return "pass"
  | .label id => return "# label " ++ w.labelName id ++ ":"
  | .remark text => return text

/-- A line at a depth. -/
def line (w : Writer) (depth : Nat) (c : Content) : Except Fault Line := do
  return ⟨depth, c, ← w.contentText c⟩

/-- Lines at a depth. -/
def lines (w : Writer) (depth : Nat) (cs : List Content) : Lines :=
  cs.mapM (w.line depth)

/-- Lines with `pass` after them if they hold no code. -/
def filled (w : Writer) (depth : Nat) (lines : List Line) : Lines := do
  if w.hasCode lines then return lines else return lines ++ [← w.line depth .pass]

/-- The label of a block that code without structure jumps to. -/
def label (w : Writer) (id : Nat) : List Content :=
  if w.targets.contains id then [.label id] else []

/-- A block: its label and its statements. -/
def block (w : Writer) (b : BlockNode) : List Content :=
  w.label b.id ++ b.statements.map .statement

/-! ## Code without structure -/

/-- An instruction of a block that could not be lifted. -/
def instruction (w : Writer) (i : Instruction) : String :=
  let operands := i.operandTexts w.scope.dialect w.scope.pool.toList " "
  Text.trimEnd ("# " ++ Text.hexOffset i.offset ++ " " ++ i.mnemonic ++ " " ++ operands)

/-- Where control goes after a block without structure. -/
def rawEnding (w : Writer) (r : RawNode) (value : Option String) : List String :=
  let goto (id : Nat) : String := "# goto " ++ w.labelName id
  let valueText := value.getD "None"
  match r.ending, r.gotos with
  | .cond, [a, b] => [s!"# if {valueText}: goto " ++ w.labelName a, goto b]
  | .iterBegin, [a, b] | .iterNext, [a, b] =>
    let origin := (value.map (" over " ++ ·)).getD ""
    ["# next element" ++ origin ++ ": goto " ++ w.labelName a,
      "# exhausted: goto " ++ w.labelName b]
  | .ret, _ => ["# return" ++ (value.map (" " ++ ·)).getD ""]
  | _, gotos => gotos.map goto

/-- The comments that stand for code without structure. A block is always labelled. -/
def comments (w : Writer) (r : RawNode) : Except Fault (List Content) := do
  let reason := r.reason.text
  match r.block with
  | none =>
    let targets := commaList (r.gotos.map w.labelName)
    return [.remark s!"{marker} low-confidence goto {targets} ({reason})"]
  | some id =>
    let name := w.labelName id
    let head := [.remark s!"{marker} low-confidence {name} ({reason})", .label id]
    match r.statements with
    | none => return head ++ r.instructions.map fun i => .remark (w.instruction i)
    | some ss =>
      let texts ← ss.mapM w.statement
      let value ← r.value.mapM w.scope.expr
      return head ++ (texts.map ("# " ++ ·) ++ w.rawEnding r value).map .remark

/-! ## Constructs -/

/-- Whether the false arm of a conditional is itself a conditional that can be chained to it: blocks
that print nothing may stand before it. -/
def chains (w : Writer) (whenFalse : List Node) : Bool :=
  match whenFalse.getLast? with
  | some (.ifElse _ _ _ _) => whenFalse.dropLast.all fun n =>
    match n with
    | .block b => b.statements.isEmpty && !w.targets.contains b.id
    | _ => false
  | _ => false

mutual

/-- A node at a depth; a conditional begins with a word. -/
def node (w : Writer) (depth : Nat) (word : String) : Node → Lines
  | .block b => w.lines depth (w.block b)
  | .sequence body => w.nodes depth body
  | .ifElse _ condition whenTrue whenFalse => do
    let head ← w.line depth (.test word condition)
    let arm ← w.filled (depth + 1) (← w.nodes (depth + 1) whenTrue)
    if whenFalse.isEmpty then return head :: arm
    else if w.chains whenFalse then return head :: arm ++ (← w.chained depth whenFalse)
    else
      let separator ← w.line depth .otherwise
      let other ← w.filled (depth + 1) (← w.nodes (depth + 1) whenFalse)
      return head :: arm ++ separator :: other
  | .whileLoop condition body header => do
    let label ← w.lines depth ((header.map fun b => w.label b.id).getD [])
    let head ← w.line depth (.test "while" condition)
    let body ← w.filled (depth + 1) (← w.nodes (depth + 1) body)
    return label ++ head :: body
  | .forLoop _ element iterable body setup latch => do
    let before ← w.lines depth (w.block setup)
    let head ← w.line depth (.iteration element iterable)
    let body ← w.nodes (depth + 1) body
    let after ← w.lines (depth + 1) (w.block latch)
    return before ++ head :: (← w.filled (depth + 1) (body ++ after))
  | .matching _ subject cases fallback _ => do
    let head ← w.line depth (.subject subject)
    let cases ← w.matchCases (depth + 1) cases
    return head :: cases ++ (← w.matchFallback (depth + 1) fallback)
  | .ret value _ => w.lines depth [.ret value]
  | .leaveLoop => w.lines depth [.leaveLoop]
  | .nextTurn => w.lines depth [.nextTurn]
  | .raw r => do w.lines depth (← w.comments r)

/-- Nodes at a depth. -/
def nodes (w : Writer) (depth : Nat) : List Node → Lines
  | [] => return []
  | n :: ns => do
    let head ← w.node depth "if" n
    return head ++ (← w.nodes depth ns)

/-- The conditional at the end of a false arm, chained to the one before. -/
def chained (w : Writer) (depth : Nat) : List Node → Lines
  | [] => return []
  | [n] => w.node depth "elif" n
  | _ :: ns => w.chained depth ns

/-- The cases of a match. -/
def matchCases (w : Writer) (depth : Nat) : List (Expr × List Node) → Lines
  | [] => return []
  | (pattern, body) :: rest => do
    let head ← w.line depth (.pattern pattern)
    let body ← w.filled (depth + 1) (← w.nodes (depth + 1) body)
    return head :: body ++ (← w.matchCases depth rest)

/-- The case of a match for everything else. -/
def matchFallback (w : Writer) (depth : Nat) : Option (List Node) → Lines
  | none => return []
  | some body => do
    let head ← w.line depth .wildcard
    return head :: (← w.filled (depth + 1) (← w.nodes (depth + 1) body))

end

/-- A body without a return at its end that has nothing to say. -/
def withoutFinalReturn (w : Writer) (body : List Node) : Except Fault (List Node) := do
  match body.getLast? with
  | some (.ret value _) => return if ← w.isBareReturn value then body.dropLast else body
  | _ => return body

/-- The lines of a body: declarations first, and `pass` if there is no code below the top. -/
def body (w : Writer) (depth : Nat) (tree : List Node) : Lines := do
  let arguments := w.scope.names.arguments
  let kept ← w.withoutFinalReturn (declared arguments [] tree)
  let declarations ← w.lines depth ((hoisted arguments tree).map .declaration)
  let lines := declarations ++ (← w.nodes depth kept)
  if depth = 0 then return lines else w.filled depth lines

end Writer

end Unscript.Source
