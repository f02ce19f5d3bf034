import Unscript.Structuring.Region

/-!
# Chains of comparisons

A match is compiled to a chain of conditionals that compare one subject with a constant each; the
false arm of a comparison leads to the next one, and all arms meet at one block.

* `Chain.of?` finds the chain that begins at a conditional.
-/

namespace Unscript

/-- A comparison of a subject with a constant: the subject and the constant. -/
def Expr.comparison? : Expr → Option (Expr × Expr)
  | .binary .eq left right =>
    if right.isConst && !left.isConst && left.isPure then some (left, right) else none
  | _ => none

/-- A chain of comparisons: for every case the constant and the block of its arm, the blocks of the
comparisons behind the first, and the false arm of the last. -/
structure Chain where
  cases : List (Expr × Nat)
  tests : List Nat
  fallback : Nat
  deriving Repr

namespace Chain

/-- What a chain compares, where its arms meet, and the region it stands in. -/
structure Scope where
  subject : Expr
  join : Nat
  region : Region

/-- Whether a block ends with a conditional that jumps when its test is false. -/
def jumpsWhenFalse (p : Plan) (id : Nat) : Bool :=
  match (p.instructions id).getLast? with
  | some i => i.transfer == .branchFalse
  | none => false

/-- Whether the shape of the graph lets a block continue a chain after another. -/
def canFollow (p : Plan) (s : Scope) (visited : BlockSet) (previous id : Nat) : Bool :=
  let f := p.flow
  !(id == s.join || id == f.exit || visited.contains id || (f.loopAt? id).isSome) &&
    s.region.allows id && (f.ending id).kind == .cond && f.preds id == [previous] &&
    f.join? id == some s.join && jumpsWhenFalse p id

/-- The constant that a block compares the subject with, if it continues a chain. -/
def pattern? (p : Plan) (s : Scope) (previous id : Nat) : Structuring (Option Expr) := do
  if !canFollow p s (← get).visited previous id then return none
  match ← Structuring.lift? p id with
  | none => return none
  | some l =>
    if !l.isPureTest || l.residue != 0 then return none
    match l.value.bind Expr.comparison? with
    | some (subject, pattern) => return if subject = s.subject then some pattern else none
    | none => return none

/-- Extends a chain by the comparisons that follow a block. Each has the one before as its only
predecessor, so no chain is longer than the count of blocks. -/
def extend (p : Plan) (s : Scope) : Nat → Nat → Chain → Structuring Chain
  | 0, _, c => return c
  | fuel + 1, current, c => do
    let id := c.fallback
    match ← pattern? p s current id, (p.flow.ending id).arms? with
    | some pattern, some (whenTrue, whenFalse) =>
      extend p s fuel id {
        cases := c.cases ++ [(pattern, whenTrue)]
        tests := c.tests ++ [id]
        fallback := whenFalse }
    | _, _ => return c

/-- The chain that begins at a conditional, with its subject, if it has enough cases. -/
def of? (p : Plan) (id : Nat) (l : Lifted) (r : Region) : Structuring (Option (Expr × Chain)) := do
  match p.flow.join? id, l.value.bind Expr.comparison?, (p.flow.ending id).arms? with
  | some join, some (subject, pattern), some (whenTrue, whenFalse) =>
    if !p.dialect.supports "match" || !r.holds p.flow join || !jumpsWhenFalse p id then
      return none
    let start : Chain := ⟨[(pattern, whenTrue)], [], whenFalse⟩
    let c ← extend p ⟨subject, join, r⟩ p.flow.graph.size id start
    return if c.cases.length < p.options.minCases then none else some (subject, c)
  | _, _, _ => return none

end Chain

end Unscript
