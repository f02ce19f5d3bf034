import Unscript.Flow.Graph
import Unscript.Tree.Stmt

/-!
# Structured code

The body of a function as a tree of constructs. Straight-line code stands in block nodes; code whose
structure could not be recovered stands in raw nodes, which name the blocks where control goes on.

* `Node.preorder` visits the nodes of a body, outermost first.
* `Node.leaves` are the nodes that hold instructions: each instruction of a function stands in one
  of them.
-/

namespace Unscript

/-- The straight-line code of a block. -/
structure BlockNode where
  id : Nat
  instructions : List Instruction
  statements : List Stmt := []
  deriving DecidableEq, Repr

/-- Why code has no structure. -/
inductive RawReason where
  | leavesConstruct
  | entersStructured
  | irreducible
  | strayAdvance
  | noAdvance
  | setupNotLifted
  | notLifted
  | noJoin
  | unreachable
  | unstructured
  | other (text : String)
  deriving DecidableEq, Repr

/-- The words for a reason. -/
def RawReason.text : RawReason → String
  | .leavesConstruct => "jump leaves the enclosing construct"
  | .entersStructured => "jump into already structured code"
  | .irreducible => "irreducible loop"
  | .strayAdvance => "iterator advance outside its loop"
  | .noAdvance => "iterator loop without a matching advance"
  | .setupNotLifted => "iterator setup could not be lifted"
  | .notLifted => "block could not be lifted"
  | .noJoin => "conditional without a join"
  | .unreachable => "unreachable"
  | .unstructured => "unstructured"
  | .other text => text

/-- Code without structure. One without a block is a bare jump; one without statements could not be
lifted and keeps its instructions only. -/
structure RawNode where
  reason : RawReason
  block : Option Nat := none
  instructions : List Instruction := []
  statements : Option (List Stmt) := none
  ending : EndingKind := .jump
  value : Option Expr := none
  gotos : List Nat := []
  deriving DecidableEq, Repr

/-- A construct. The header of a loop is the block of its test; the setup and latch of an iteration
are the blocks that begin and advance its iterator; the tests of a match are the blocks that its
comparisons were folded from. -/
inductive Node where
  | block (b : BlockNode)
  | sequence (body : List Node)
  | ifElse (block : Option Nat) (condition : Expr) (whenTrue whenFalse : List Node)
  | whileLoop (condition : Expr) (body : List Node) (header : Option BlockNode)
  | forLoop (iterator element : Nat) (iterable : Expr) (body : List Node) (setup latch : BlockNode)
  | matching (block : Option Nat) (subject : Expr) (cases : List (Expr × List Node))
      (fallback : Option (List Node)) (tests : List BlockNode)
  | ret (value : Option Expr) (implicit : Bool)
  | leaveLoop
  | nextTurn
  | raw (r : RawNode)
  deriving Repr, Inhabited

/-- A node that holds instructions. -/
inductive Leaf where
  | block (b : BlockNode)
  | raw (r : RawNode)
  deriving DecidableEq, Repr

/-- The instructions of a leaf. -/
def Leaf.instructions : Leaf → List Instruction
  | .block b => b.instructions
  | .raw r => r.instructions

namespace Node

mutual

/-- A node and all nodes inside it, outermost first. -/
def preorder : Node → List Node
  | .sequence body => .sequence body :: preorderAll body
  | .ifElse id c whenTrue whenFalse =>
    .ifElse id c whenTrue whenFalse :: (preorderAll whenTrue ++ preorderAll whenFalse)
  | .whileLoop c body header => .whileLoop c body header :: preorderAll body
  | .forLoop i v e body setup latch => .forLoop i v e body setup latch :: preorderAll body
  | .matching id s cases fallback tests =>
    .matching id s cases fallback tests :: (preorderCases cases ++ preorderFallback fallback)
  | n => [n]

/-- The nodes of a body, outermost first. -/
def preorderAll : List Node → List Node
  | [] => []
  | n :: ns => n.preorder ++ preorderAll ns

/-- The nodes of all cases. -/
def preorderCases : List (Expr × List Node) → List Node
  | [] => []
  | (_, body) :: rest => preorderAll body ++ preorderCases rest

/-- The nodes of a body that may be absent. -/
def preorderFallback : Option (List Node) → List Node
  | none => []
  | some body => preorderAll body

end

/-- The leaves of a node itself, without those of the nodes inside it. -/
def ownLeaves : Node → List Leaf
  | .block b => [.block b]
  | .raw r => [.raw r]
  | .whileLoop _ _ (some header) => [.block header]
  | .forLoop _ _ _ _ setup latch => [.block setup, .block latch]
  | .matching _ _ _ _ tests => tests.map .block
  | _ => []

/-- The leaves of a body. -/
def leaves (body : List Node) : List Leaf :=
  (preorderAll body).flatMap ownLeaves

/-- The raw code of a node. -/
def raw? : Node → Option RawNode
  | .raw r => some r
  | _ => none

/-- The raw nodes of a body. -/
def raws (body : List Node) : List RawNode :=
  (preorderAll body).filterMap raw?

/-- Whether a node is a block without statements. -/
def isBlank : Node → Bool
  | .block b => b.statements.isEmpty
  | _ => false

/-- Whether a body does nothing. -/
def isEmptyBody (body : List Node) : Bool :=
  body.all isBlank

/-- Whether a node goes on with the next turn of a loop. -/
def isNextTurn : Node → Bool
  | .nextTurn => true
  | _ => false

/-- A loop body without the steps at its end that only go on with the next turn. -/
def stripNextTurn (body : List Node) : List Node :=
  (body.reverse.dropWhile isNextTurn).reverse

end Node

end Unscript
