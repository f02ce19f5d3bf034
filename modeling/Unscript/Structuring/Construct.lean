import Unscript.Structuring.Chain

/-!
# Constructs

Every block that the walk reaches becomes the beginning of a construct: a conditional, a match, a
loop, an iteration, or plain code. A construct says which nodes it makes and at which block the
walk goes on. Its bodies are built by the walk itself, which is a parameter here.

* `Construct.conditional` prefers steps out of the region, then a match, then arms that meet inside
  the region, then arms that leave it early.
* `Construct.loop` and `Construct.iteration` build loops.
* `Construct.build` takes a step and builds the construct that begins at a block.
-/

namespace Unscript

/-- The nodes of a construct and the block where the walk goes on. -/
abbrev Construct := List Node × Option Nat

/-- How bodies are built: from a block, in a region. When `entering`, the first block is built
although a jump to it would be a step out of the region. -/
abbrev BuildBody := (entering : Bool) → (start : Nat) → Region → Structuring (List Node)

namespace Construct

/-! ## Conditionals -/

/-- The body of an arm that ends where the arms meet. -/
def arm (build : BuildBody) (r : Region) (start join : Nat) : Structuring (List Node) :=
  if start = join then pure [] else build false start { r with stop := some join }

/-- A conditional whose arms meet. When only the false arm does something, the test is negated. -/
def ifElse (build : BuildBody) (id : Nat) (condition : Expr) (arms : Nat × Nat) (join : Nat)
    (r : Region) : Structuring Node := do
  let whenTrue ← arm build r arms.1 join
  let whenFalse ← arm build r arms.2 join
  return if whenTrue.isEmpty && !whenFalse.isEmpty then
    .ifElse (some id) condition.negate whenFalse []
  else .ifElse (some id) condition whenTrue whenFalse

/-- A conditional before the next turn of a loop, one arm of which does nothing: that arm goes on
with the next turn, and the other follows the conditional. -/
def continueEarly (r : Region) (id : Nat) (join : Nat) : Node → List Node
  | .ifElse block condition whenTrue whenFalse =>
    let blank := Node.isEmptyBody
    if !r.isNextTurn join then [.ifElse block condition whenTrue whenFalse]
    else if blank whenTrue && !whenFalse.isEmpty && !blank whenFalse then
      .ifElse (some id) condition (whenTrue ++ [.nextTurn]) [] :: whenFalse
    else if blank whenFalse && !whenFalse.isEmpty && !blank whenTrue then
      .ifElse (some id) condition.negate (whenFalse ++ [.nextTurn]) [] :: whenTrue
    else [.ifElse block condition whenTrue whenFalse]
  | n => [n]

/-- A match from a chain of comparisons. -/
def matching (p : Plan) (build : BuildBody) (id : Nat) (subject : Expr) (c : Chain) (join : Nat)
    (r : Region) : Structuring Node := do
  for test in c.tests do Structuring.visit test
  let cases ← c.cases.mapM fun (pattern, start) => do
    return (pattern, ← arm build r start join)
  let fallback ←
    if c.fallback = join then pure none
    else some <$> build false c.fallback { r with stop := some join }
  return .matching (some id) subject cases fallback (c.tests.map (p.blockNode ·))

/-- Whether the false arm is the one to take out of the way: it leaves the region and the true arm
does not, or only the true arm would end in a next turn. -/
def falseArmLeaves (whenTrue whenFalse : Option (List Departure)) : Bool :=
  match whenTrue, whenFalse with
  | _, none => false
  | none, some _ => true
  | some t, some f => t.contains .nextTurn && !f.contains .nextTurn

/-- A conditional that is neither a step out of the region nor a match, and whose arms do not meet
inside it. -/
def divergent (p : Plan) (build : BuildBody) (id : Nat) (head : Node) (condition : Expr)
    (arms : Nat × Nat) (r : Region) : Structuring Construct := do
  let f := p.flow
  let visited := (← get).visited
  let whenTrue := r.departures? f visited arms.1 arms.2
  let whenFalse := r.departures? f visited arms.2 arms.1
  let open_ : Region := { r with stop := none }
  if falseArmLeaves whenTrue whenFalse then
    let body ← build false arms.2 open_
    return ([head, .ifElse (some id) condition.negate body []], some arms.1)
  else if whenTrue.isSome then
    let body ← build false arms.1 open_
    return ([head, .ifElse (some id) condition body []], some arms.2)
  else if f.join? id = some f.exit then
    let node ← ifElse build id condition arms f.exit r
    return ([head, node], some f.exit)
  else
    Structuring.note s!"conditional in block {id} has no structured join"
    return ([← Structuring.raw p id .noJoin], none)

/-- The construct of a conditional. -/
def conditional (p : Plan) (build : BuildBody) (id : Nat) (l : Lifted) (arms : Nat × Nat)
    (r : Region) : Structuring Construct := do
  let f := p.flow
  let head : Node := .block (p.blockNode id l.statements)
  let condition ← Structuring.needed id l.value
  match r.armExit? f arms.1, r.armExit? f arms.2 with
  | some t, some e => return ([head, .ifElse (some id) condition [t] [e]], none)
  | none, some e => return ([head, .ifElse (some id) condition.negate [e] []], some arms.1)
  | some t, none => return ([head, .ifElse (some id) condition [t] []], some arms.2)
  | none, none =>
    match f.join? id, ← Chain.of? p id l r with
    | some join, some (subject, c) =>
      return ([head, ← matching p build id subject c join r], some join)
    | some join, none =>
      if join != f.exit && r.joinsInside f join then
        let node ← ifElse build id condition arms join r
        return (head :: continueEarly r id join node, some join)
      else divergent p build id head condition arms r
    | none, _ => divergent p build id head condition arms r

/-! ## Loops -/

/-- The region of a loop's body. -/
def loopRegion (p : Plan) (l : Loop) (exit : Option Nat) : Region where
  allowed := some (p.flow.ownedBlocks l exit)
  loop := some ⟨l.header, exit, l.header⟩
  header := some l.header

/-- The test of a loop at its header: the condition to go on, the first block of the body and the
block after the loop. -/
def loopTest? (p : Plan) (l : Loop) (lifted : Option Lifted) :
    Structuring (Option (Expr × Nat × Nat)) := do
  match p.flow.ending l.header, lifted with
  | .cond whenTrue whenFalse, some lifted =>
    if !lifted.statements.isEmpty || lifted.residue != 0 then return none
    match l.body.contains whenTrue, l.body.contains whenFalse with
    | true, false => return some (← Structuring.needed l.header lifted.value, whenTrue, whenFalse)
    | false, true =>
      return some ((← Structuring.needed l.header lifted.value).negate, whenFalse, whenTrue)
    | _, _ => return none
  | _, _ => return none

/-- Whether a loop opens with a conditional whose arms meet inside it. -/
def opensWithConditional (p : Plan) (l : Loop) : Bool :=
  match p.flow.join? l.header with
  | some join => l.body.contains join
  | none => false

/-- A loop without a test at its header, which goes on until something leaves it. -/
def endless (p : Plan) (build : BuildBody) (l : Loop) : Structuring Construct := do
  let exit := p.flow.loopExit? l
  let body ← build true l.header (loopRegion p l exit)
  return ([.whileLoop (.bool true) (Node.stripNextTurn body) none], exit)

/-- The construct of a natural loop. -/
def loop (p : Plan) (build : BuildBody) (l : Loop) : Structuring Construct := do
  let id := l.header
  if !l.reducible || l.latches.toList.any fun t => (p.flow.ending t).kind == .iterNext then
    Structuring.note s!"loop at block {id} cannot be structured"
    return ([← Structuring.raw p id .irreducible], none)
  let lifted ← Structuring.lift? p id
  if opensWithConditional p l then
    Structuring.note s!"loop at block {id} opens with an if/else"
    endless p build l
  else
    match ← loopTest? p l lifted with
    | none => endless p build l
    | some (condition, start, exit) =>
      Structuring.visit id
      let body ← if start = id then pure [] else
        build false start (loopRegion p l (some exit))
      return ([.whileLoop condition (Node.stripNextTurn body) (some (p.blockNode id))], some exit)

/-! ## Iterations -/

/-- The iterator and the element of an instruction that begins or advances an iterator. -/
def iteratorSlots? (p : Plan) (id : Nat) : Option (Nat × Nat) := do
  let i ← (p.instructions id).getLast?
  pure (← i.operand? .slot 0, ← i.operand? .slot 1)

/-- The only latch of a loop, if it advances the iterator that a block begins. -/
def advance? (p : Plan) (id body exit : Nat) : Option (Loop × Nat) := do
  let l ← p.flow.loopAt? body
  match l.latches.toList with
  | [latch] =>
    if l.reducible && p.flow.ending latch == .iterNext body exit &&
        iteratorSlots? p latch == iteratorSlots? p id then
      some (l, latch)
    else none
  | _ => none

/-- The construct of a block that begins an iterator. -/
def iteration (p : Plan) (build : BuildBody) (id body exit : Nat) : Structuring Construct := do
  match (advance? p id body exit).filter fun a => !a.1.body.contains id with
  | none =>
    Structuring.note s!"iterator loop at block {id} has no matching advance"
    return ([← Structuring.raw p id .noAdvance], none)
  | some (l, latch) =>
    match ← Structuring.lift? p id, ← Structuring.lift? p latch with
    | some begun, some advanced =>
      let some (iterator, element) := iteratorSlots? p id | throw (.noLocals id)
      Structuring.visit id
      Structuring.visit latch
      let region : Region := {
        stop := some latch
        allowed := some (p.flow.ownedBlocks l (some exit))
        loop := some ⟨body, some exit, latch⟩
        header := some body }
      let nodes ← if body = latch then pure [] else build false body region
      let iterable ← Structuring.needed id begun.value
      return ([.forLoop iterator element iterable (Node.stripNextTurn nodes)
        (p.blockNode id begun.statements) (p.blockNode latch advanced.statements)], some exit)
    | _, _ => return ([← Structuring.raw p id .setupNotLifted], none)

/-! ## Every block -/

/-- The construct of a block that begins neither a loop nor an iteration. -/
def plain (p : Plan) (build : BuildBody) (id : Nat) (r : Region) : Structuring Construct := do
  let ending := p.flow.ending id
  Structuring.visit id
  match ← Structuring.lift? p id with
  | none =>
    let node ← Structuring.raw p id .notLifted
    match ending with
    | .jump t | .fallthrough t => return ([node], some t)
    | _ => return ([node], none)
  | some l =>
    match ending with
    | .cond whenTrue whenFalse => conditional p build id l (whenTrue, whenFalse) r
    | .ret _ => return ([.block (p.blockNode id l.statements), .ret l.value false], none)
    | e => return ([.block (p.blockNode id l.statements)], e.target?)

/-- Takes a step and builds the construct that begins at a block. -/
def build (p : Plan) (build : BuildBody) (id : Nat) (r : Region) : Structuring Construct := do
  Structuring.step p id
  match (p.flow.loopAt? id).filter fun _ => some id != r.header with
  | some l => loop p build l
  | none =>
    match p.flow.ending id with
    | .iterBegin body exit => iteration p build id body exit
    | .iterNext _ _ => return ([← Structuring.raw p id .strayAdvance], none)
    | _ => plain p build id r

end Construct

end Unscript
