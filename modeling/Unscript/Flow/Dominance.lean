import Unscript.Flow.BlockSet
import Unscript.Flow.Graph

/-!
# Reachability and dominance

A block dominates another when it lies on every path to it from the entry; it postdominates
another when it lies on every path from there to the end. Both relations are greatest solutions of
equations over sets of blocks, found by lowering the full sets until nothing changes.

* `closure` is the set of blocks that a relation reaches from a start.
* `greatest` iterates equations; every unstable pass removes a member of some set, so the count of
  members in all sets is fuel enough.
-/

namespace Unscript.Graph

/-- The blocks reached from those in `work` through `next`, added to `seen`. Every block is expanded
once, so the count of edges and starts is fuel enough. -/
def closure (next : Nat → List Nat) : Nat → BlockSet → List Nat → BlockSet
  | 0, seen, _ => seen
  | _, seen, [] => seen
  | fuel + 1, seen, i :: work =>
    if i ∈ seen then closure next fuel seen work
    else closure next fuel (seen.insert i) (next i ++ work)

/-- The blocks reached from the entry, and the virtual block. -/
def reachable (g : Graph) : BlockSet :=
  (closure g.successors (2 * g.size + 2) BlockSet.empty [0]).insert g.exit

/-- Iterates a map on tables of sets until it changes nothing. -/
def greatest (step : Array BlockSet → Array BlockSet) : Nat → Array BlockSet → Array BlockSet
  | 0, table => table
  | fuel + 1, table =>
    let lowered := step table
    if lowered = table then table else greatest step fuel lowered

/-- The members common to the sets of all blocks of a list, starting from all blocks. -/
def meet (table : Array BlockSet) (all : BlockSet) (ids : List Nat) : BlockSet :=
  ids.foldl (fun s i => s.inter (table[i]?.getD BlockSet.empty)) all

/-- The table of a function on blocks. -/
def tableOf (size : Nat) (f : Nat → BlockSet) : Array BlockSet :=
  ((List.range size).map f).toArray

/-- The set of one block in a table. -/
def entryOf (table : Array BlockSet) (i : Nat) : BlockSet :=
  table[i]?.getD BlockSet.empty

/-- The dominators of every block; an unreachable one has none. -/
def dominators (g : Graph) (reach : BlockSet) (preds : Nat → List Nat) : Array BlockSet :=
  let start (i : Nat) : BlockSet :=
    if i = 0 then BlockSet.single 0 else if i ∈ reach then reach else BlockSet.empty
  let step (table : Array BlockSet) : Array BlockSet := tableOf g.size fun i =>
    if i = 0 then BlockSet.single 0
    else if i ∈ reach then
      match (preds i).filter (· ∈ reach) with
      | [] => BlockSet.single i
      | ps => (meet table reach ps).insert i
    else BlockSet.empty
  greatest step (g.size * g.size + 1) (tableOf g.size start)

/-- How an edge relates to the dominators of its ends. -/
inductive EdgeKind where
  | unreachable
  | back
  | forward
  | retreating
  | cross
  deriving DecidableEq, Repr

/-- The word for a kind of edge. -/
def EdgeKind.text : EdgeKind → String
  | .unreachable => "unreachable"
  | .back => "back"
  | .forward => "forward"
  | .retreating => "retreating"
  | .cross => "cross"

/-- The kind of the edge from `a` to `b`: back when its target dominates its source, forward the
other way round, retreating when it leads to an earlier block otherwise. -/
def edgeKind (g : Graph) (reach : BlockSet) (dom : Array BlockSet) (a b : Nat) : EdgeKind :=
  if a ∉ reach then .unreachable
  else if b ∈ entryOf dom a then .back
  else if a ∈ entryOf dom b then .forward
  else if (g.block b).start ≤ (g.block a).start ∧ !(g.block b).isVirtual then .retreating
  else .cross

/-- The postdominators of every block along given successors. A block without successors has only
itself, and so has one whose set was never lowered from the full set. -/
def postdominators (g : Graph) (reach : BlockSet) (next : Nat → List Nat) : Array BlockSet :=
  let fixed (i : Nat) : Bool := i = g.exit || i ∉ reach || (next i).isEmpty
  let start (i : Nat) : BlockSet := if fixed i then BlockSet.single i else reach
  let step (table : Array BlockSet) : Array BlockSet := tableOf g.size fun i =>
    if fixed i then BlockSet.single i else (meet table reach (next i)).insert i
  let table := greatest step (g.size * g.size + 1) (tableOf g.size start)
  tableOf g.size fun i =>
    if entryOf table i = reach ∧ i ≠ g.exit then BlockSet.single i else entryOf table i

end Unscript.Graph
