import Unscript.Number.Decimal
import Unscript.Structuring.Body

/-!
# Structured functions

The tree of a function, with what became of its blocks: how many have no structure, which are out of
reach, where bare jumps lead, and how much of the code the tree speaks for.

* `Structured.ofInstructions` structures decoded instructions.
* `Structured.confidence` is the share of instructions that stand in structured code.
-/

namespace Unscript

open Number (Double)

/-- A function with its tree. `exit` is the virtual block of its graph, if it has any code. -/
structure Structured where
  body : List Node
  exit : Option Nat := none
  size : Nat := 0
  unreachable : List Nat := []
  residue : Nat := 0
  gotoTargets : BlockSet := .empty
  truncated : Bool := false

namespace Structured

/-- The count of raw nodes. -/
def rawBlocks (s : Structured) : Nat :=
  (Node.raws s.body).length

/-- The count of instructions in raw nodes. -/
def rawInstructions (s : Structured) : Nat :=
  (((Node.raws s.body).filter (·.block.isSome)).flatMap (·.instructions)).length

/-- The share of instructions in raw nodes. -/
def rawRatio (s : Structured) : Double :=
  if s.size = 0 then Double.ofRat 0 else Double.ofRat (s.rawInstructions / s.size : Rat)

/-- The share of instructions in structured code, with four places. -/
def confidence (s : Structured) : Double :=
  (Double.ofRat (1 - s.rawRatio.toRat)).roundPlaces 4

/-- Whether the tree says less than the code. -/
def lowConfidence (s : Structured) : Bool :=
  s.rawBlocks != 0 || s.residue != 0

/-- The count of raw nodes in reach that move control elsewhere. -/
def rawTransfers (s : Structured) : Nat :=
  (Node.raws s.body).countP fun r => r.reason != .unreachable && r.ending != .fallthrough

/-- The name of a block. -/
def labelOf (s : Structured) (id : Nat) : String :=
  if s.exit = some id then "end" else s!"block_{id}"

/-- The result of a walk. -/
def ofWalk (f : Flow) (nodes : List Node) (w : Walk) : Structured where
  body := nodes
  exit := some f.exit
  size := f.graph.instructions.length
  unreachable := f.unreachable
  residue := w.lifted.foldl (fun count x => count + x.2.residue) 0
  gotoTargets := w.gotos
  truncated := f.graph.truncated

/-- A list of blocks in brackets. -/
def blockList (ids : List Nat) : String :=
  "[" ++ ", ".intercalate (ids.map toString) ++ "]"

/-- The note about blocks out of reach. -/
def unreachableNotes (f : Flow) : List Note :=
  if f.unreachable.isEmpty then []
  else
    let ids := blockList f.unreachable
    [⟨.debug, .structuring, s!"unreachable blocks kept as raw code: {ids}"⟩]

/-- Structures an analysed graph. -/
def ofPlan (p : Plan) : Noted (Except StructureFault Structured) :=
  match (Structuring.function p).run {} with
  | (.ok nodes, w) => ⟨.ok (ofWalk p.flow nodes w), w.notes ++ unreachableNotes p.flow⟩
  | (.error e, w) => ⟨.error e, w.notes⟩

/-- Structures decoded instructions; without a length the code ends with the last of them. -/
def ofInstructions (d : Dialect) (options : StructureOptions) (is : List Instruction)
    (length : Option Nat := none) : Noted (Except StructureFault Structured) :=
  if is.isEmpty then pure (.ok { body := [] })
  else
    match Flow.build is length with
    | .error e => pure (.error (.graph e))
    | .ok f => ofPlan ⟨d, f, options⟩

end Structured

end Unscript
