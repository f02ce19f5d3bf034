import Unscript.Structuring.Walk

/-!
# Regions

A body is built from the blocks of a region: up to a block where it stops, inside a set of allowed
blocks, and within the nearest loop, whose exit and next turn are reached by steps of their own.

* `Region.exit?` is the step that a jump out of the region amounts to.
* `Region.departures?` tells how all paths from a block leave the region early, if they all do.
* `Flow.loopExit?` and `Flow.ownedBlocks` are the exit of a loop and the blocks that belong to it.
-/

namespace Unscript

/-- The nearest loop around a region: its header, the block after it, and the block that a next turn
begins at. -/
structure LoopFrame where
  header : Nat
  exit : Option Nat
  nextTurn : Nat
  deriving DecidableEq, Repr

/-- A region of a graph. `header` is the header of the loop whose body the region is. -/
structure Region where
  stop : Option Nat := none
  allowed : Option BlockSet := none
  loop : Option LoopFrame := none
  header : Option Nat := none

/-- How a path leaves a region early. -/
inductive Departure where
  | ret
  | leaveLoop
  | nextTurn
  deriving DecidableEq, Repr

namespace Region

/-- Whether a block may stand in the region. -/
def allows (r : Region) (id : Nat) : Bool :=
  match r.allowed with
  | some s => s.contains id
  | none => true

/-- Whether a block is the next turn of the nearest loop. -/
def isNextTurn (r : Region) (id : Nat) : Bool :=
  match r.loop with
  | some frame => id == frame.nextTurn
  | none => false

/-- Whether a block is the exit of the nearest loop. -/
def isLoopExit (r : Region) (id : Nat) : Bool :=
  match r.loop with
  | some frame => some id == frame.exit
  | none => false

/-- The step that a jump to a block amounts to, if it leaves the region by one. -/
def exit? (f : Flow) (r : Region) (target : Nat) : Option Node :=
  if r.isNextTurn target then some .nextTurn
  else if r.isLoopExit target then some .leaveLoop
  else if target = f.exit ∧ r.stop ≠ some f.exit then some (.ret none true)
  else none

/-- The step that an arm amounts to, if it does not lead to the stop. -/
def armExit? (f : Flow) (r : Region) (target : Nat) : Option Node :=
  if r.stop = some target then none else r.exit? f target

/-- Whether a block lies in the region or at one of its borders. -/
def holds (f : Flow) (r : Region) (id : Nat) : Bool :=
  if r.stop = some id then true
  else if r.isLoopExit id || r.isNextTurn id then true
  else if id = f.exit then r.stop == some f.exit
  else r.allows id

/-- Whether arms that meet at a block meet inside the region. Meeting at the exit of the loop or at
its next turn is leaving early. -/
def joinsInside (f : Flow) (r : Region) (join : Nat) : Bool :=
  r.holds f join && (r.stop == some join || (r.exit? f join).isNone)

/-! ## Leaving early -/

/-- What happens at a block on the way out of a region. -/
inductive Passage where
  | stays
  | departs (d : Departure)
  | passes (next : List Nat)
  deriving DecidableEq, Repr

/-- What happens at a block on the way out of a region; paths that reach `other` stay. -/
def passage (f : Flow) (visited : BlockSet) (r : Region) (other id : Nat) : Passage :=
  if r.stop = some id ∨ id = other then .stays
  else if id = f.exit then .departs .ret
  else if r.isLoopExit id then .departs .leaveLoop
  else if r.isNextTurn id then .departs .nextTurn
  else if !r.allows id || visited.contains id then .stays
  else
    match f.forwardSuccessors id with
    | [] => .departs .nextTurn
    | next => .passes next

/-- The blocks that a passage goes on to. -/
def Passage.next : Passage → List Nat
  | .passes next => next
  | _ => []

/-- The departure of a passage. -/
def Passage.departure? : Passage → Option Departure
  | .departs d => some d
  | _ => none

/-- How the forward paths from an arm leave the region, unless one of them reaches the other arm or
stays. -/
def departures? (f : Flow) (visited : BlockSet) (r : Region) (arm other : Nat) :
    Option (List Departure) :=
  if arm = other then none
  else
    let passageOf := r.passage f visited other
    let reached := (Graph.closure (fun i => (passageOf i).next) (2 * f.graph.size + 2)
      BlockSet.empty [arm]).toList
    if reached.any fun i => passageOf i == .stays then none
    else some (reached.filterMap fun i => (passageOf i).departure?)

end Region

/-! ## Loops -/

namespace Flow

/-- The block after a loop: the first exit behind its last block, else the first exit in the order
of the code. The end of the function counts only when nothing else does. -/
def loopExit? (f : Flow) (l : Loop) : Option Nat :=
  let start (i : Nat) : Nat := (f.block i).start
  let exits := l.exits.toList.filter (· != f.exit)
  let last := (l.body.toList.map start).foldl max 0
  let behind := exits.filter fun i => last < start i
  ((behind.minOn? start).or (exits.minOn? start)).or
    (if f.exit ∈ l.exits then some f.exit else none)

/-- Whether a block belongs to a loop although it leaves it: only the loop reaches it. -/
def joinsLoop (f : Flow) (exit : Option Nat) (owned : BlockSet) (id : Nat) : Bool :=
  some id != exit && id != f.exit && f.reachable.contains id && (f.loopAt? id).isNone &&
    (f.preds id).all fun p => !f.reachable.contains p || owned.contains p

/-- Adds blocks that belong to a loop until there are no more. -/
def growOwned (f : Flow) (exit : Option Nat) : Nat → BlockSet → BlockSet
  | 0, owned => owned
  | fuel + 1, owned =>
    let frontier := BlockSet.ofList (owned.toList.flatMap f.forwardSuccessors)
    let more := (frontier.diff owned).toList.filter (f.joinsLoop exit owned)
    if more.isEmpty then owned else growOwned f exit fuel (more.foldl BlockSet.insert owned)

/-- The body of a loop and the blocks only it reaches that leave it early. -/
def ownedBlocks (f : Flow) (l : Loop) (exit : Option Nat) : BlockSet :=
  f.growOwned exit (f.graph.size + 1) l.body

end Flow

end Unscript
