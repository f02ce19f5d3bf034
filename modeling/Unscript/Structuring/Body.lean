import Unscript.Structuring.Construct

/-!
# Bodies

A body is a row of constructs: the walk builds the construct at a block and goes on where the
construct says, until it reaches the end of the region or a block it cannot follow.

* `Structuring.body` builds the body that begins at a block.
* `Structuring.leftovers` keeps blocks that the walk did not reach as raw nodes.
-/

namespace Unscript

namespace Structuring

/-- How a body goes on at a block. -/
inductive Onward where
  | ends (nodes : List Node)
  | jumps (reason : RawReason)
  | builds

/-- How a body goes on at a block that it does not enter by force. -/
def onward (f : Flow) (r : Region) (visited : BlockSet) (id : Nat) : Onward :=
  if r.stop = some id then .ends []
  else
    match r.exit? f id with
    | some node => .ends [node]
    | none =>
      if id = f.exit then .ends []
      else if !r.allows id then .jumps .leavesConstruct
      else if visited.contains id then .jumps .entersStructured
      else .builds

/-- Builds the body that begins at a block. Every construct takes a step, so one more than the
budget of steps is fuel enough. -/
def body (p : Plan) : Nat → (entering : Bool) → (start : Nat) → Region → Structuring (List Node)
  | 0, _, start, _ => throw (.budget start)
  | fuel + 1, entering, start, r => do
    let visited := (← get).visited
    match if entering then .builds else onward p.flow r visited start with
    | .ends nodes => return nodes
    | .jumps reason => return [← goto start reason]
    | .builds =>
      let (nodes, next) ← Construct.build p (body p fuel) start r
      match next with
      | none => return nodes
      | some id => return nodes ++ (← body p fuel false id r)

/-- Keeps the blocks that the walk did not reach, in order. -/
def leftovers (p : Plan) : Structuring (List Node) := do
  let visited := (← get).visited
  (p.flow.realBlocks.filter fun id => !visited.contains id).mapM fun id =>
    raw p id (if p.flow.reachable.contains id then .unstructured else .unreachable)

/-- The block that holds the instruction of an index. -/
def blockAt (p : Plan) (index : Nat) : Nat :=
  (p.flow.realBlocks.filter fun id => (p.flow.block id).start ≤ index).getLast?.getD 0

/-- The block of the last instruction at an offset. -/
def blockOfOffset (p : Plan) (offset : Nat) : Nat :=
  let indexed := p.flow.graph.instructions.zipIdx
  blockAt p (((indexed.reverse.find? fun x => x.1.offset == offset).map (·.2)).getD 0)

/-- The first instruction of a list at an offset that occurred before. -/
def firstRepeated? : List Nat → List Instruction → Option Instruction
  | _, [] => none
  | seen, i :: rest =>
    if seen.contains i.offset then some i else firstRepeated? (i.offset :: seen) rest

/-- Checks that every instruction stands in one leaf of the tree. -/
def checkCoverage (p : Plan) (nodes : List Node) : Structuring Unit := do
  let held := (Node.leaves nodes).flatMap Leaf.instructions
  match firstRepeated? [] held with
  | some i => throw (.twice i (blockOfOffset p i.offset))
  | none =>
    let offsets := held.map (·.offset)
    match p.flow.graph.instructions.zipIdx.find? fun x => !offsets.contains x.1.offset with
    | some (i, index) => throw (.missing i (blockAt p index))
    | none => return ()

/-- Builds the tree of a function. -/
def function (p : Plan) : Structuring (List Node) := do
  let walked ← body p (p.budget + 1) false 0 { stop := some p.flow.exit }
  let nodes := walked ++ (← leftovers p)
  checkCoverage p nodes
  return nodes

end Structuring

end Unscript
