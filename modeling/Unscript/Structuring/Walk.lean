import Unscript.Flow.Analysis
import Unscript.Lifting
import Unscript.Tree.Node

/-!
# The walk over a graph

Structuring walks over the blocks of a function and turns each into nodes of a tree once. The walk
keeps which blocks were turned into nodes, where jumps without structure lead, which blocks were
lifted, and at which blocks it took its steps; a budget bounds the steps.

* `Structuring.raw` turns a block into a node without structure, whatever it holds.
* `Structuring.attempt` lifts a block once and keeps the result.
-/

namespace Unscript

/-- Why a function has no tree. Two do not arise with the operations of the standard dialects: an
ending that tests a value no instruction leaves, or an iterator without locals. The last arises only
where the host bounds the calls that may be nested. -/
inductive StructureFault where
  | graph (e : GraphFault)
  | lift (e : LiftFault)
  | budget (block : Nat)
  | twice (i : Instruction) (block : Nat)
  | missing (i : Instruction) (block : Nat)
  | noValue (block : Nat)
  | noLocals (block : Nat)
  | exhausted
  deriving DecidableEq, Repr

namespace StructureFault

/-- The report of a violated invariant of the tree. -/
def invariant (text : String) (block : Nat) (offset : Option Nat) : Diagnostic where
  kind := "ReconstructError"
  message := s!"{text} (block {block})"
  offset := offset
  block := some block

/-- The report of a fault. -/
def diagnostic? : StructureFault → Option Diagnostic
  | .graph e => e.diagnostic?
  | .lift e => e.diagnostic?
  | .budget block => some (invariant "structuring exceeded its step budget" block none)
  | .twice i block =>
    let place := Text.hexOffset i.offset
    some (invariant s!"instruction {place} emitted twice" block (some i.position))
  | .missing i block =>
    let place := Text.hexOffset i.offset
    some (invariant s!"instruction {place} missing from the structured tree" block
      (some i.position))
  | .noValue _ | .noLocals _ | .exhausted => none

end StructureFault

/-- How functions are structured: the fewest comparisons that make a match, and the budget of steps,
which by default follows from the count of blocks. -/
structure StructureOptions where
  minCases : Nat := 3
  maxSteps : Option Nat := none
  deriving DecidableEq, Repr

/-- What structuring starts from. -/
structure Plan where
  dialect : Dialect
  flow : Flow
  options : StructureOptions

namespace Plan

/-- The budget of steps. -/
def budget (p : Plan) : Nat :=
  p.options.maxSteps.getD (8 * p.flow.graph.size + 64)

/-- The instructions of a block. -/
def instructions (p : Plan) (id : Nat) : List Instruction :=
  (p.flow.block id).instructions

/-- The node of a block with its statements. -/
def blockNode (p : Plan) (id : Nat) (statements : List Stmt := []) : BlockNode where
  id := id
  instructions := p.instructions id
  statements := statements

end Plan

/-- What the walk knows so far. A step is taken at every block where a construct is begun. -/
structure Walk where
  visited : BlockSet := .empty
  gotos : BlockSet := .empty
  begun : List Nat := []
  lifted : List (Nat × Lifted) := []
  notes : List Note := []

/-- How many steps were taken. -/
def Walk.steps (w : Walk) : Nat :=
  w.begun.length

/-- A part of the walk. -/
abbrev Structuring := ExceptT StructureFault (StateM Walk)

namespace Structuring

/-- Leaves a note. -/
def note (text : String) : Structuring Unit :=
  modify fun w => { w with notes := w.notes ++ [⟨.debug, .structuring, text⟩] }

/-- Marks a block as turned into a node. -/
def visit (id : Nat) : Structuring Unit :=
  modify fun w => { w with visited := w.visited.insert id }

/-- Keeps where a jump leads. -/
def aim (targets : List Nat) : Structuring Unit :=
  modify fun w => { w with gotos := targets.foldl BlockSet.insert w.gotos }

/-- Takes a step at a block. -/
def step (p : Plan) (id : Nat) : Structuring Unit := do
  modify fun w => { w with begun := id :: w.begun }
  if p.budget < (← get).steps then throw (.budget id)

/-- Lifts a block, or finds it lifted before. -/
def attempt (p : Plan) (id : Nat) : Structuring (Except LiftFault Lifted) := do
  match (← get).lifted.lookup id with
  | some l => return .ok l
  | none =>
    match Lifted.ofInstructions p.dialect id (p.instructions id) with
    | .ok l =>
      modify fun w => { w with lifted := w.lifted ++ [(id, l)], notes := w.notes ++ l.notes id }
      return .ok l
    | .error e => return .error e

/-- Lifts a block if its instructions find their values on the stack. Other faults end the walk. -/
def lift? (p : Plan) (id : Nat) : Structuring (Option Lifted) := do
  match ← attempt p id with
  | .ok l => return some l
  | .error (.underflow i block) =>
    let reason := (LiftFault.underflow i block).message
    note s!"block {id} could not be lifted: {reason}"
    return none
  | .error e => throw (.lift e)

/-- Turns a block into a node without structure. A block that cannot be lifted keeps its
instructions only. -/
def raw (p : Plan) (id : Nat) (reason : RawReason) : Structuring Node := do
  visit id
  let ending := p.flow.ending id
  let (statements, value) ← do
    match ← attempt p id with
    | .ok l => pure (some l.statements, l.value)
    | .error e =>
      match e.diagnostic? with
      | some g =>
        note s!"raw block {id} kept as instructions: {g.message}"
        pure (none, none)
      | none => throw (.lift e)
  aim ending.destinations
  return .raw {
    reason, block := some id, instructions := p.instructions id, statements
    ending := ending.kind, value, gotos := ending.destinations }

/-- A bare jump to a block. -/
def goto (target : Nat) (reason : RawReason) : Structuring Node := do
  aim [target]
  return .raw { reason, gotos := [target] }

/-- The value that the ending of a block needs. -/
def needed (id : Nat) : Option Expr → Structuring Expr
  | some e => pure e
  | none => throw (.noValue id)

end Structuring

end Unscript
