import Unscript.Proofs.Structuring.Walk
import Unscript.Structuring.Body

/-!
# How trees are built

The tree of a function as a derivation: which construct is built at which block, in which region,
from which arms, and which blocks are visited then. A derivation says nothing of the state of the
walk but the visited blocks. Bodies are built by the walk itself, which is a parameter of the
single constructs here, as it is of the functions that build them.

* `Structuring.Conditional`, `Structuring.Looped`, `Structuring.Iterated`, `Structuring.Plain`: the
  derivations of the kinds of constructs, `Structuring.Made` those of all of them.
* `Structuring.Onwards`: how a body goes on at a block.
* `Structuring.Derived`: the derivations of bodies.
-/

namespace Unscript.Structuring

/-- Which bodies are built from a block in a region, and which blocks are visited before and
after. -/
abbrev Bodies := (entering : Bool) → (start : Nat) → Region → BlockSet → List Node → BlockSet → Prop

section Constructs

variable (p : Plan) (B : Bodies)

/-! ## Arms -/

/-- An arm: it is empty when it starts where it stops. -/
inductive Arm (r : Region) (start stop : Nat) (V : BlockSet) : List Node → BlockSet → Prop
  | empty (h : start = stop) : Arm r start stop V [] V
  | body {nodes : List Node} {V' : BlockSet} (h : start ≠ stop) (hbody : B false start r V nodes V') :
    Arm r start stop V nodes V'

/-- The arms of the cases of a match. -/
inductive Arms (r : Region) (stop : Nat) :
    List (Expr × Nat) → BlockSet → List (Expr × List Node) → BlockSet → Prop
  | nil (V : BlockSet) : Arms r stop [] V [] V
  | cons {e : Expr} {start : Nat} {rest : List (Expr × Nat)} {V V₁ V₂ : BlockSet}
    {nodes : List Node} {bodies : List (Expr × List Node)}
    (harm : Arm B r start stop V nodes V₁) (harms : Arms r stop rest V₁ bodies V₂) :
    Arms r stop ((e, start) :: rest) V ((e, nodes) :: bodies) V₂

/-- The last arm of a match, which may be absent. -/
inductive Fallback (r : Region) (start stop : Nat) (V : BlockSet) :
    Option (List Node) → BlockSet → Prop
  | absent (h : start = stop) : Fallback r start stop V none V
  | present {nodes : List Node} {V' : BlockSet} (h : start ≠ stop)
    (hbody : B false start r V nodes V') : Fallback r start stop V (some nodes) V'

/-! ## Conditionals -/

theorem comparison?_eq {e subject pattern : Expr} (h : e.comparison? = some (subject, pattern)) :
    e = .binary .eq subject pattern := by
  unfold Expr.comparison? at h
  split at h
  · split at h
    · cases h
      rfl
    · cases h
  · cases h

/-- What a value is compared with is a constant of the pool. -/
theorem isConst_of_comparison? {e subject pattern : Expr}
    (h : e.comparison? = some (subject, pattern)) : pattern.isConst = true := by
  unfold Expr.comparison? at h
  split at h
  · split at h
    · rename_i hconst
      cases h
      simp only [Bool.and_eq_true] at hconst
      exact hconst.1.1
    · cases h
  · cases h

/-- The comparisons that follow a block of a chain: for every one the constant and the block of its
arm, its block, and the false arm of the last. -/
inductive Links (s : Chain.Scope) (V : BlockSet) :
    (current fallback : Nat) → List (Expr × Nat) → List Nat → (last : Nat) → Prop
  | done (current fallback : Nat) : Links s V current fallback [] [] fallback
  | link {current id a b last : Nat} {pattern : Expr} {l : Lifted} {cases : List (Expr × Nat)}
    {tests : List Nat} (hcan : Chain.canFollow p s V current id = true) (hlift : p.lift id = .ok l)
    (hpure : l.isPureTest = true) (hresidue : l.residue = 0)
    (hvalue : l.value.bind Expr.comparison? = some (s.subject, pattern))
    (hending : (p.flow.ending id).arms? = some (a, b)) (hrest : Links s V id b cases tests last) :
    Links s V current id ((pattern, a) :: cases) (id :: tests) last

/-- The node of a conditional whose arms meet. -/
def ifElseOf (id : Nat) (c : Expr) (whenTrue whenFalse : List Node) : Node :=
  if whenTrue.isEmpty && !whenFalse.isEmpty then .ifElse (some id) c.negate whenFalse []
  else .ifElse (some id) c whenTrue whenFalse

/-- The arms of a conditional do not meet inside the region, unless at the end of the function. -/
def MeetsOutside (r : Region) (id : Nat) : Prop :=
  ∀ join, p.flow.join? id = some join → join = p.flow.exit ∨ r.joinsInside p.flow join = false

/-- The constructs of a conditional with a condition and two arms. -/
inductive Conditional (id : Nat) (head : Node) (c : Expr) (x y : Nat) (r : Region) (V : BlockSet) :
    Construct → BlockSet → Prop
  | steps {t e : Node} (ht : r.armExit? p.flow x = some t) (he : r.armExit? p.flow y = some e) :
    Conditional id head c x y r V ([head, .ifElse (some id) c [t] [e]], none) V
  | falseSteps {e : Node} (ht : r.armExit? p.flow x = none) (he : r.armExit? p.flow y = some e) :
    Conditional id head c x y r V ([head, .ifElse (some id) c.negate [e] []], some x) V
  | trueSteps {t : Node} (ht : r.armExit? p.flow x = some t) (he : r.armExit? p.flow y = none) :
    Conditional id head c x y r V ([head, .ifElse (some id) c [t] []], some y) V
  | chained {join last : Nat} {subject pattern : Expr} {cases : List (Expr × Nat)}
    {tests : List Nat} {bodies : List (Expr × List Node)} {fallback : Option (List Node)}
    {V₁ V₂ : BlockSet} (ht : r.armExit? p.flow x = none) (he : r.armExit? p.flow y = none)
    (hjoin : p.flow.join? id = some join) (hholds : r.holds p.flow join = true)
    (hvalue : c.comparison? = some (subject, pattern))
    (hlinks : Links p ⟨subject, join, r⟩ V id y cases tests last)
    (harms : Arms B { r with stop := some join } join ((pattern, x) :: cases)
      (tests.foldl BlockSet.insert V) bodies V₁)
    (hfallback : Fallback B { r with stop := some join } last join V₁ fallback V₂)
    (hmatch : p.dialect.supports "match" = true) (hmin : p.options.minCases ≤ cases.length + 1) :
    Conditional id head c x y r V
      ([head, .matching (some id) subject bodies fallback (tests.map (p.blockNode ·))], some join) V₂
  | meets {join : Nat} {whenTrue whenFalse : List Node} {V₁ V₂ : BlockSet}
    (ht : r.armExit? p.flow x = none) (he : r.armExit? p.flow y = none)
    (hjoin : p.flow.join? id = some join) (hexit : join ≠ p.flow.exit)
    (hinside : r.joinsInside p.flow join = true)
    (htrue : Arm B { r with stop := some join } x join V whenTrue V₁)
    (hfalse : Arm B { r with stop := some join } y join V₁ whenFalse V₂) :
    Conditional id head c x y r V
      (head :: Construct.continueEarly r id join (ifElseOf id c whenTrue whenFalse), some join) V₂
  | falseDeparts {body : List Node} {V' : BlockSet} (ht : r.armExit? p.flow x = none)
    (he : r.armExit? p.flow y = none) (houtside : MeetsOutside p r id)
    (hleaves : Construct.falseArmLeaves (r.departures? p.flow V x y) (r.departures? p.flow V y x))
    (hbody : B false y { r with stop := none } V body V') :
    Conditional id head c x y r V ([head, .ifElse (some id) c.negate body []], some x) V'
  | trueDeparts {body : List Node} {V' : BlockSet} (ht : r.armExit? p.flow x = none)
    (he : r.armExit? p.flow y = none) (houtside : MeetsOutside p r id)
    (hleaves : (r.departures? p.flow V x y).isSome)
    (hbody : B false x { r with stop := none } V body V') :
    Conditional id head c x y r V ([head, .ifElse (some id) c body []], some y) V'
  | meetsAtEnd {whenTrue whenFalse : List Node} {V₁ V₂ : BlockSet}
    (ht : r.armExit? p.flow x = none) (he : r.armExit? p.flow y = none)
    (hjoin : p.flow.join? id = some p.flow.exit)
    (htrue : Arm B { r with stop := some p.flow.exit } x p.flow.exit V whenTrue V₁)
    (hfalse : Arm B { r with stop := some p.flow.exit } y p.flow.exit V₁ whenFalse V₂) :
    Conditional id head c x y r V ([head, ifElseOf id c whenTrue whenFalse], some p.flow.exit) V₂
  | noJoin (ht : r.armExit? p.flow x = none) (he : r.armExit? p.flow y = none) :
    Conditional id head c x y r V ([.raw (p.rawOf id .noJoin)], none) (V.insert id)

/-! ## Loops and iterations -/

/-- Which arm of the test at its header a loop goes on with: the condition to go on, the first block
of the body and the block after the loop. -/
inductive Goes (l : Loop) (c : Expr) (x y : Nat) : Expr → Nat → Nat → Prop
  | whenTrue (hx : l.body.contains x = true) (hy : l.body.contains y = false) : Goes l c x y c x y
  | whenFalse (hx : l.body.contains x = false) (hy : l.body.contains y = true) :
    Goes l c x y c.negate y x

/-- Whether a loop cannot be structured. -/
def irregular (l : Loop) : Bool :=
  !l.reducible || l.latches.toList.any fun t => (p.flow.ending t).kind == .iterNext

/-- The constructs of a natural loop. -/
inductive Looped (l : Loop) (V : BlockSet) : Construct → BlockSet → Prop
  | irreducible (h : irregular p l = true) :
    Looped l V ([.raw (p.rawOf l.header .irreducible)], none) (V.insert l.header)
  | endless {body : List Node} {V' : BlockSet} (h : irregular p l = false)
    (hbody : B true l.header (Construct.loopRegion p l (p.flow.loopExit? l)) V body V') :
    Looped l V ([.whileLoop (.bool true) (Node.stripNextTurn body) none], p.flow.loopExit? l) V'
  | tested {lifted : Lifted} {c condition : Expr} {x y start exit : Nat} {body : List Node}
    {V' : BlockSet} (h : irregular p l = false) (hending : p.flow.ending l.header = .cond x y)
    (hlift : p.lift l.header = .ok lifted) (hstatements : lifted.statements = [])
    (hresidue : lifted.residue = 0) (hvalue : lifted.value = some c)
    (hgoes : Goes l c x y condition start exit)
    (hbody : Arm B (Construct.loopRegion p l (some exit)) start l.header (V.insert l.header)
      body V') :
    Looped l V
      ([.whileLoop condition (Node.stripNextTurn body) (some (p.blockNode l.header))], some exit) V'

/-- The loop of an iteration and its latch, which advances the iterator. -/
structure Advances (body exit : Nat) (l : Loop) (latch : Nat) : Prop where
  loop : p.flow.loopAt? body = some l
  latches : l.latches.toList = [latch]
  reducible : l.reducible = true
  ending : p.flow.ending latch = .iterNext body exit

/-- The region of the body of an iteration. -/
def iterationRegion (l : Loop) (body exit latch : Nat) : Region where
  stop := some latch
  allowed := some (p.flow.ownedBlocks l (some exit))
  loop := some ⟨body, some exit, latch⟩
  header := some body

/-- The constructs of a block that begins an iterator. -/
inductive Iterated (id body exit : Nat) (V : BlockSet) : Construct → BlockSet → Prop
  | noAdvance : Iterated id body exit V ([.raw (p.rawOf id .noAdvance)], none) (V.insert id)
  | notLifted : Iterated id body exit V ([.raw (p.rawOf id .setupNotLifted)], none) (V.insert id)
  | turns {l : Loop} {latch iterator element : Nat} {begun advanced : Lifted} {iterable : Expr}
    {nodes : List Node} {V' : BlockSet}
    (hadvance : Construct.advance? p id body exit = some (l, latch)) (hid : l.body.contains id = false)
    (hbegun : p.lift id = .ok begun) (hadvanced : p.lift latch = .ok advanced)
    (hslots : Construct.iteratorSlots? p id = some (iterator, element))
    (hvalue : begun.value = some iterable)
    (hbody : Arm B (iterationRegion p l body exit latch) body latch ((V.insert id).insert latch)
      nodes V') :
    Iterated id body exit V
      ([.forLoop iterator element iterable (Node.stripNextTurn nodes)
        (p.blockNode id begun.statements) (p.blockNode latch advanced.statements)], some exit) V'

/-! ## Every block -/

/-- Where the walk goes on after a block that could not be lifted. -/
def afterRaw : Ending → Option Nat
  | .jump t | .fallthrough t => some t
  | _ => none

theorem mem_of_afterRaw {e : Ending} {t : Nat} (h : afterRaw e = some t) : t ∈ e.successors := by
  cases e <;> cases h <;> exact List.mem_singleton_self t

/-- The constructs of a block that begins neither a loop nor an iteration; the block is among the
visited ones. -/
inductive Plain (id : Nat) (r : Region) (V : BlockSet) : Construct → BlockSet → Prop
  | notLifted :
    Plain id r V ([.raw (p.rawOf id .notLifted)], afterRaw (p.flow.ending id)) (V.insert id)
  | conditional {l : Lifted} {c : Expr} {x y : Nat} {construct : Construct} {V' : BlockSet}
    (hlift : p.lift id = .ok l) (hvalue : l.value = some c) (hending : p.flow.ending id = .cond x y)
    (h : Conditional p B id (.block (p.blockNode id l.statements)) c x y r V construct V') :
    Plain id r V construct V'
  | ret {l : Lifted} {exit : Nat} (hlift : p.lift id = .ok l)
    (hending : p.flow.ending id = .ret exit) :
    Plain id r V ([.block (p.blockNode id l.statements), .ret l.value false], none) V
  | straight {l : Lifted} {t : Nat} (hlift : p.lift id = .ok l)
    (hending : p.flow.ending id = .jump t ∨ p.flow.ending id = .fallthrough t) :
    Plain id r V ([.block (p.blockNode id l.statements)], some t) V

/-- A block that is built for itself: it is no header of a loop but of the one that the region is the
body of. -/
def Alone (id : Nat) (r : Region) : Prop :=
  ∀ l, p.flow.loopAt? id = some l → r.header = some id

/-- The construct that begins at a block. -/
inductive Made (id : Nat) (r : Region) (V : BlockSet) : Construct → BlockSet → Prop
  | loop {l : Loop} {construct : Construct} {V' : BlockSet} (hloop : p.flow.loopAt? id = some l)
    (hheader : r.header ≠ some id) (h : Looped p B l V construct V') : Made id r V construct V'
  | iteration {body exit : Nat} {construct : Construct} {V' : BlockSet} (halone : Alone p id r)
    (hending : p.flow.ending id = .iterBegin body exit)
    (h : Iterated p B id body exit V construct V') : Made id r V construct V'
  | strayAdvance {body exit : Nat} (halone : Alone p id r)
    (hending : p.flow.ending id = .iterNext body exit) :
    Made id r V ([.raw (p.rawOf id .strayAdvance)], none) (V.insert id)
  | plain {construct : Construct} {V' : BlockSet} (halone : Alone p id r)
    (h : Plain p B id r (V.insert id) construct V') : Made id r V construct V'

end Constructs

theorem advances_of_advance? {p : Plan} {id body exit latch : Nat} {l : Loop}
    (h : Construct.advance? p id body exit = some (l, latch)) : Advances p body exit l latch := by
  obtain ⟨l', hloop, h⟩ := Option.bind_eq_some_iff.mp h
  split at h
  · rename_i latch' hlatches
    split at h
    · rename_i hcond
      cases h
      simp only [Bool.and_eq_true, beq_iff_eq] at hcond
      exact ⟨hloop, hlatches, hcond.1.1, hcond.1.2⟩
    · cases h
  · cases h

/-! ## Bodies -/

/-- A block that a body enters: it can be reached, it is not the virtual one and not visited, and the
body is built there. -/
structure Enters (p : Plan) (entering : Bool) (start : Nat) (r : Region) (V : BlockSet) :
    Prop where
  reach : start ∈ p.flow.reachable
  real : start < p.flow.exit
  fresh : start ∉ V
  way : (entering = true ∧ r.header = some start) ∨
    (entering = false ∧ onward p.flow r V start = .builds)

/-- How a body ends at a block: it stops there, or a step leads out of the region. -/
theorem ends_of_onward {f : Flow} {r : Region} {V : BlockSet} {start : Nat} {nodes : List Node}
    (h : onward f r V start = .ends nodes) :
    (r.stop = some start ∧ nodes = []) ∨
      (r.stop ≠ some start ∧ ∃ n, r.exit? f start = some n ∧ nodes = [n]) := by
  unfold onward at h
  split at h
  · rename_i hstop
    cases h
    exact .inl ⟨hstop, rfl⟩
  rename_i hstop
  split at h
  · rename_i n hn
    cases h
    exact .inr ⟨hstop, n, hn, rfl⟩
  rename_i hnone
  split at h
  · -- A step to the end of the function would have been one out of the region.
    rename_i hexit
    exfalso
    subst hexit
    unfold Region.exit? at hnone
    split at hnone
    · cases hnone
    split at hnone
    · cases hnone
    rw [if_pos ⟨rfl, hstop⟩] at hnone
    cases hnone
  split at h
  · cases h
  split at h <;> cases h

/-- How a body goes on at a block. -/
inductive Onwards (p : Plan) (B : Bodies) : Bodies
  | ends {start : Nat} {r : Region} {V : BlockSet} {nodes : List Node}
    (h : onward p.flow r V start = .ends nodes) : Onwards p B false start r V nodes V
  | jumps {start : Nat} {r : Region} {V : BlockSet} {reason : RawReason}
    (h : onward p.flow r V start = .jumps reason) :
    Onwards p B false start r V [.raw { reason, gotos := [start] }] V
  | stops {entering : Bool} {start : Nat} {r : Region} {V V' : BlockSet} {nodes : List Node}
    (henters : Enters p entering start r V) (hmade : Made p B start r V (nodes, none) V') :
    Onwards p B entering start r V nodes V'
  | goesOn {entering : Bool} {start next : Nat} {r : Region} {V V₁ V₂ : BlockSet}
    {nodes rest : List Node} (henters : Enters p entering start r V)
    (hmade : Made p B start r V (nodes, some next) V₁) (hrest : B false next r V₁ rest V₂) :
    Onwards p B entering start r V (nodes ++ rest) V₂

/-- The derivations of bodies, with fuel as for the bodies themselves. -/
def Derived (p : Plan) : Nat → Bodies
  | 0 => fun _ _ _ _ _ _ => False
  | fuel + 1 => Onwards p (Derived p fuel)

end Unscript.Structuring
