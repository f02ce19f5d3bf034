import Unscript.Structuring.Structured

/-!
# Structuring on a bounded stack

Structuring calls itself for the bodies of a construct, and the search for a match goes down into the
values that it compares. A host bounds how many calls may be nested; a function that needs more of
them ends the run with a fault that has no report. Counted are the calls that lie on a way back to
the same routine; what such a routine calls beside them is no deeper than a few calls anywhere.

* `Expr.searchCalls` counts the calls of the search for code of the script in an expression.
* `Chain.calls` counts the calls of the search for a match at a block.
* `Structuring.bodyWithin` is `Structuring.body` for a count of calls.
* `Structured.ofInstructionsWithin` is `Structured.ofInstructions` for a count of calls, if there is a
  bound.
-/

namespace Unscript

namespace Expr

/-- The calls nested by the search for the first part of an expression that can run code of the
script. The parts behind it are not looked at. -/
def searchCalls : Expr → Nat
  | .attr obj _ => 1 + obj.searchCalls
  | .index obj key =>
    1 + if obj.isPure then max obj.searchCalls key.searchCalls else obj.searchCalls
  | .binary _ left right =>
    1 + if left.isPure then max left.searchCalls right.searchCalls else left.searchCalls
  | .unary _ operand => 1 + operand.searchCalls
  | _ => 1

/-- The value that a test compares with a constant, whether it can run code of the script or not. -/
def compared? : Expr → Option Expr
  | .binary .eq left right => if right.isConst && !left.isConst then some left else none
  | _ => none

end Expr

namespace Chain

/-- The calls nested by the search for comparisons that continue a chain at a block after another. -/
def followCalls (p : Plan) (s : Scope) (visited : BlockSet) : Nat → Nat → Nat → Nat
  | 0, _, _ => 0
  | fuel + 1, previous, id =>
    if !canFollow p s visited previous id then 0
    else
      match Lifted.ofInstructions p.dialect id (p.instructions id), (p.flow.ending id).arms? with
      | .ok l, some (_, whenFalse) =>
        match l.value.bind Expr.compared? with
        | some e =>
          if !l.isPureTest || l.residue != 0 then 0
          else if e = s.subject then max e.searchCalls (followCalls p s visited fuel id whenFalse)
          else e.searchCalls
        | none => 0
      | _, _ => 0

/-- The calls nested by the search for a match that begins at a conditional. -/
def matchCalls (p : Plan) (visited : BlockSet) (id : Nat) (r : Region) (whenFalse : Nat) : Nat :=
  match p.flow.join? id, Lifted.ofInstructions p.dialect id (p.instructions id) with
  | some join, .ok l =>
    match l.value.bind Expr.compared? with
    | some e =>
      if !p.dialect.supports "match" || !r.holds p.flow join then 0
      else if !e.isPure || !jumpsWhenFalse p id then e.searchCalls
      else
        max e.searchCalls
          (followCalls p ⟨e, join, r⟩ (visited.insert id) p.flow.graph.size id whenFalse)
    | none => 0
  | _, _ => 0

/-- The calls nested by the search for a match at a block: none where a loop begins, where no
conditional ends the block, or where one of its arms is a step out of the region. -/
def calls (p : Plan) (visited : BlockSet) (id : Nat) (r : Region) : Nat :=
  match (p.flow.loopAt? id).filter fun _ => some id != r.header with
  | some _ => 0
  | none =>
    match p.flow.ending id with
    | .cond whenTrue whenFalse =>
      if (r.armExit? p.flow whenTrue).isSome || (r.armExit? p.flow whenFalse).isSome then 0
      else matchCalls p visited id r whenFalse
    | _ => 0

end Chain

namespace Structuring

/-- How many calls deeper than a body a body inside it is built: four where arms meet, since these
have a routine of their own, and three elsewhere. -/
def callsInside (r inner : Region) : Nat :=
  if inner.stop.isSome && inner.header == r.header then 4 else 3

/-- `body`, for a count of calls that may be nested. -/
def bodyWithin (p : Plan) : Nat → (stack : Nat) → (entering : Bool) → (start : Nat) → Region →
    Structuring (List Node)
  | 0, _, _, start, _ => throw (.budget start)
  | fuel + 1, stack, entering, start, r => do
    if stack = 0 then throw .exhausted
    let visited := (← get).visited
    match if entering then .builds else onward p.flow r visited start with
    | .ends nodes => return nodes
    | .jumps reason => return [← goto start reason]
    | .builds =>
      if stack < Chain.calls p visited start r then throw .exhausted
      let inside : BuildBody := fun entering start inner =>
        bodyWithin p fuel (stack - callsInside r inner) entering start inner
      let (nodes, next) ← Construct.build p inside start r
      match next with
      | none => return nodes
      | some id => return nodes ++ (← bodyWithin p fuel stack false id r)

/-- `function`, for a count of calls that may be nested. -/
def functionWithin (p : Plan) (stack : Nat) : Structuring (List Node) := do
  let walked ← bodyWithin p (p.budget + 1) stack false 0 { stop := some p.flow.exit }
  let nodes := walked ++ (← leftovers p)
  checkCoverage p nodes
  return nodes

end Structuring

namespace Structured

/-- Structures an analysed graph, for a count of calls that may be nested. -/
def ofPlanWithin (stack : Nat) (p : Plan) : Noted (Except StructureFault Structured) :=
  match (Structuring.functionWithin p stack).run {} with
  | (.ok nodes, w) => ⟨.ok (ofWalk p.flow nodes w), w.notes ++ unreachableNotes p.flow⟩
  | (.error e, w) => ⟨.error e, w.notes⟩

/-- Structures decoded instructions on a stack, which has no bound or one. -/
def ofInstructionsWithin (stack : Option Nat) (d : Dialect) (options : StructureOptions)
    (is : List Instruction) (length : Option Nat := none) :
    Noted (Except StructureFault Structured) :=
  match stack with
  | none => ofInstructions d options is length
  | some calls =>
    if is.isEmpty then pure (.ok { body := [] })
    else
      match Flow.build is length with
      | .error e => pure (.error (.graph e))
      | .ok f => ofPlanWithin calls ⟨d, f, options⟩

end Structured

end Unscript
