import Unscript.Flow.Dominance

/-!
# The analysed graph

A control flow graph together with what later stages ask of it: reachable blocks, dominators,
postdominators, natural loops, and for every conditional the block where its arms meet again.

* `Flow.ofGraph` analyses a graph.
* `Flow.join?` is the nearest block that every forward path from a block reaches.
-/

namespace Unscript

/-- A natural loop: a header, the blocks from which an edge returns to it, and the blocks that reach
one of those without passing the header. It is irreducible when some edge enters it elsewhere. -/
structure Loop where
  header : Nat
  body : BlockSet
  latches : BlockSet
  exits : BlockSet
  reducible : Bool
  deriving DecidableEq, Repr

/-- An analysed graph. The tables hold one entry for every block. -/
structure Flow where
  graph : Graph
  predecessors : Array (List Nat)
  reachable : BlockSet
  dominators : Array BlockSet
  postdominators : Array BlockSet
  forwardPostdominators : Array BlockSet
  loops : List Loop

namespace Flow

open Unscript.Graph (EdgeKind entryOf)

/-- The virtual block. -/
def exit (f : Flow) : Nat :=
  f.graph.exit

/-- The block of an id. -/
def block (f : Flow) (id : Nat) : Block :=
  f.graph.block id

/-- The ending of a block. -/
def ending (f : Flow) (id : Nat) : Ending :=
  (f.block id).ending

/-- The blocks from which control can come. -/
def preds (f : Flow) (id : Nat) : List Nat :=
  f.predecessors[id]?.getD []

/-- The kind of an edge. -/
def kind (f : Flow) (a b : Nat) : EdgeKind :=
  f.graph.edgeKind f.reachable f.dominators a b

/-- The successors of a block without those along back edges. -/
def forwardSuccessors (f : Flow) (id : Nat) : List Nat :=
  (f.graph.successors id).filter fun s => f.kind id s != .back

/-- The ids of the blocks that hold instructions. -/
def realBlocks (f : Flow) : List Nat :=
  List.range f.exit

/-- The blocks with instructions that no path reaches. -/
def unreachable (f : Flow) : List Nat :=
  f.realBlocks.filter (· ∉ f.reachable)

/-- The nearest block other than `id` that every forward path from `id` reaches. -/
def immediatePostdominator? (f : Flow) (id : Nat) : Option Nat :=
  let strict := (entryOf f.forwardPostdominators id).diff (BlockSet.single id)
  strict.toList.find? fun c => entryOf f.forwardPostdominators c == strict

/-- The block where the arms of a reachable conditional meet. -/
def join? (f : Flow) (id : Nat) : Option Nat :=
  match f.ending id with
  | .cond _ _ => if id ∈ f.reachable then f.immediatePostdominator? id else none
  | _ => none

/-- The loop with a header. -/
def loopAt? (f : Flow) (id : Nat) : Option Loop :=
  f.loops.find? (·.header == id)

/-! ## Loops -/

/-- The header and the blocks that reach a latch without passing it. -/
def naturalLoop (reach : BlockSet) (preds : Nat → List Nat) (size header latch : Nat) : BlockSet :=
  let next (i : Nat) : List Nat := (preds i).filter (· ∈ reach)
  Graph.closure next (2 * size + 2) (BlockSet.single header) [latch]

/-- The edges that return to an earlier block, with their kinds, by ascending source. -/
def returningEdges (g : Graph) (reach : BlockSet) (dom : Array BlockSet) :
    List (Nat × Nat × EdgeKind) :=
  (List.range g.size).flatMap fun a =>
    (g.successors a).filterMap fun b =>
      match g.edgeKind reach dom a b with
      | .back => some (a, b, .back)
      | .retreating => some (a, b, .retreating)
      | _ => none

/-- The loop of the edges that return to one header. -/
def loopOf (g : Graph) (reach : BlockSet) (dom : Array BlockSet) (preds : Nat → List Nat)
    (header : Nat) (edges : List (Nat × Nat × EdgeKind)) : Loop :=
  let tails := edges.map (·.1)
  let body := tails.foldl (fun s t => s.union (naturalLoop reach preds g.size header t))
    (BlockSet.single header)
  let nodes := body.toList
  { header
    body
    latches := BlockSet.ofList tails
    exits := (BlockSet.ofList (nodes.flatMap g.successors)).diff body
    reducible := edges.all (fun e => e.2.2 == .back) &&
      nodes.all fun n => (entryOf dom n).contains header }

/-- The loops of a graph, by ascending header. -/
def loopsOf (g : Graph) (reach : BlockSet) (dom : Array BlockSet) (preds : Nat → List Nat) :
    List Loop :=
  let edges := returningEdges g reach dom
  let headers := (BlockSet.ofList (edges.map (·.2.1))).toList
  headers.map fun h => loopOf g reach dom preds h (edges.filter (·.2.1 == h))

/-- Analyses a graph. -/
def ofGraph (g : Graph) : Flow :=
  let predecessors := ((List.range g.size).map g.predecessors).toArray
  let preds (i : Nat) : List Nat := predecessors[i]?.getD []
  let reach := g.reachable
  let dom := g.dominators reach preds
  let forward (i : Nat) : List Nat := (g.successors i).filter fun s =>
    match g.edgeKind reach dom i s with
    | .back | .retreating => false
    | _ => true
  { graph := g
    predecessors
    reachable := reach
    dominators := dom
    postdominators := g.postdominators reach g.successors
    forwardPostdominators := g.postdominators reach forward
    loops := loopsOf g reach dom preds }

/-- Builds and analyses the graph of decoded instructions. -/
def build (is : List Instruction) (length : Option Nat := none) : Except GraphFault Flow :=
  (Graph.build is length).map ofGraph

end Flow

end Unscript
