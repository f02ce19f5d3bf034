import Unscript.Tree.Node
import Mathlib.Data.Seq.Defs

/-!
# Runs of a tree

A tree is run block by block. Whenever a block that tests something has run, the next outcome of a
finite or infinite sequence decides how its construct goes on; a run stops when no outcome is left.
Since a run may go on for ever, it is cut off after a number of blocks.

* `Course`: what a piece of code does with a supply of blocks and outcomes.
* `Course.again`: a loop, turn after turn.
* `Node.run`, `Node.runAll`: the course of a node and of a body.

Results:
* `Course.andThen_assoc`: courses are put together in any order.
* `Node.runAll_append`: the course of a body put together from two.
-/

namespace Unscript

/-- What a run may still use: how many blocks, and the outcomes of the tests to come. -/
structure Supply where
  blocks : Nat
  outcomes : Stream'.Seq Bool

/-- How control leaves a piece of code: at its end, for the next turn or the end of the nearest
loop, or for the end of the function. -/
inductive Sequel where
  | falls
  | turns
  | leaves
  | ends
  deriving DecidableEq, Repr

/-- A run: the blocks in order and, unless the run stops inside, how control leaves and what is left
of the supply. -/
@[ext] structure Run where
  trace : List Nat
  rest : Option (Sequel × Supply)

/-- What a piece of code does with a supply. -/
abbrev Course := Supply → Run

/-- A run after some blocks. -/
def Run.prepend (blocks : List Nat) (r : Run) : Run :=
  { r with trace := blocks ++ r.trace }

namespace Course

/-- Leaves at once. -/
def skip (q : Sequel) : Course := fun s =>
  ⟨[], some (q, s)⟩

/-- Stops at once. -/
def stuck : Course := fun _ =>
  ⟨[], none⟩

/-- Runs one block. -/
def emit (id : Nat) : Course := fun s =>
  match s.blocks with
  | 0 => ⟨[], none⟩
  | n + 1 => ⟨[id], some (.falls, { s with blocks := n })⟩

/-- Goes on by the next outcome. -/
def branch (whenTrue whenFalse : Course) : Course := fun s =>
  match s.outcomes.head with
  | some true => whenTrue { s with outcomes := s.outcomes.tail }
  | some false => whenFalse { s with outcomes := s.outcomes.tail }
  | none => ⟨[], none⟩

/-- Goes on by the next outcome in a sense: straight, swapped, or not at all. -/
def test (sense : Option Bool) (whenTrue whenFalse : Course) : Course :=
  match sense with
  | some true => branch whenTrue whenFalse
  | some false => branch whenFalse whenTrue
  | none => stuck

/-- One piece of code after another. -/
def andThen (a b : Course) : Course := fun s =>
  match a s with
  | ⟨t, some (.falls, s')⟩ => (b s').prepend t
  | r => r

/-- A turn of an iteration: the body and what follows it, also when the body asks for the next
turn. -/
def turn (body advance : Course) : Course := fun s =>
  match body s with
  | ⟨t, some (.falls, s')⟩ => (advance s').prepend t
  | ⟨t, some (.turns, s')⟩ => (advance s').prepend t
  | r => r

/-- Up to some turns of a loop, until one leaves it. -/
def again (turn : Course) : Nat → Course
  | 0, _ => ⟨[], none⟩
  | n + 1, s =>
    match turn s with
    | ⟨t, some (.falls, s')⟩ => (again turn n s').prepend t
    | ⟨t, some (.turns, s')⟩ => (again turn n s').prepend t
    | ⟨t, some (.leaves, s')⟩ => ⟨t, some (.falls, s')⟩
    | r => r

/-- A loop. Every turn runs a block, so there are no more turns than blocks. -/
def loop (turn : Course) : Course := fun s =>
  again turn (s.blocks + 1) s

end Course

/-- In which sense a condition follows the test of a block: straight when it is the tested value,
swapped when it is its negation. -/
def Expr.senseOf (condition : Expr) : Option Expr → Option Bool
  | none => none
  | some tested =>
    if condition = tested then some true
    else if condition = tested.negate then some false
    else none

namespace Node

open Course

mutual

/-- The course of a node. `tested` gives for every block the value that it tests. A loop without a
header goes on as long as its condition, which has to be true, holds. -/
def run (tested : Nat → Option Expr) : Node → Course
  | .block b => emit b.id
  | .sequence body => runAll tested body
  | .ifElse id condition whenTrue whenFalse =>
    test (condition.senseOf (id.bind tested)) (runAll tested whenTrue) (runAll tested whenFalse)
  | .whileLoop condition body none =>
    if condition = .bool true then loop (runAll tested body) else stuck
  | .whileLoop condition body (some header) =>
    loop (andThen (emit header.id)
      (test (condition.senseOf (tested header.id)) (runAll tested body) (skip .leaves)))
  | .forLoop _ _ _ body setup latch =>
    andThen (emit setup.id) (branch
      (loop (turn (runAll tested body)
        (andThen (emit latch.id) (branch (skip .falls) (skip .leaves)))))
      (skip .falls))
  | .matching id subject cases fallback tests =>
    runCases tested subject cases (id :: tests.map fun b => some b.id)
      (runFallback tested fallback)
  | .ret _ _ => skip .ends
  | .leaveLoop => skip .leaves
  | .nextTurn => skip .turns
  | .raw _ => skip .falls

/-- The course of a body. -/
def runAll (tested : Nat → Option Expr) : List Node → Course
  | [] => skip .falls
  | n :: ns => andThen (run tested n) (runAll tested ns)

/-- The course of cases that are tried in order. The first block of `blocks` has just tested the
first case; the others run when the case before them did not apply. -/
def runCases (tested : Nat → Option Expr) (subject : Expr) :
    List (Expr × List Node) → List (Option Nat) → Course → Course
  | [], _, fallback => fallback
  | (pattern, body) :: rest, id :: blocks, fallback =>
    let next : Course :=
      match blocks with
      | some other :: _ => andThen (emit other) (runCases tested subject rest blocks fallback)
      | _ => runCases tested subject rest blocks fallback
    test (Expr.senseOf (.binary .eq subject pattern) (id.bind tested)) (runAll tested body) next
  | _ :: _, [], _ => stuck

/-- The course of a body that may be absent. -/
def runFallback (tested : Nat → Option Expr) : Option (List Node) → Course
  | none => skip .falls
  | some body => runAll tested body

end

end Node

/-! ## Conditions -/

namespace Expr

theorem negate_ne (e : Expr) : e.negate ≠ e := by
  unfold negate
  split
  · intro h
    have := congrArg sizeOf h
    simp at this
  · rename_i b
    cases b <;> simp
  · intro h
    have := congrArg sizeOf h
    simp at this

theorem senseOf_self (e : Expr) : e.senseOf (some e) = some true :=
  if_pos rfl

theorem senseOf_negate (e : Expr) : e.negate.senseOf (some e) = some false :=
  (if_neg e.negate_ne).trans (if_pos rfl)

end Expr

/-! ## Courses put together -/

namespace Run

theorem prepend_prepend (t t' : List Nat) (r : Run) :
    (r.prepend t').prepend t = r.prepend (t ++ t') := by
  unfold prepend
  rw [List.append_assoc]

end Run

namespace Course

/-- What a course does before another one, by the run of the first. -/
theorem andThen_eq (a b : Course) (s : Supply) : a.andThen b s =
    match a s with
    | ⟨t, some (.falls, s')⟩ => (b s').prepend t
    | r => r := rfl

theorem andThen_of_falls {a : Course} {t : List Nat} {s s' : Supply}
    (h : a s = ⟨t, some (.falls, s')⟩) (b : Course) : a.andThen b s = (b s').prepend t := by
  rw [andThen_eq, h]

/-- A course that does not fall does the same before another one. -/
theorem andThen_of_not_falls {a : Course} {s : Supply}
    (h : ∀ s', (a s).rest ≠ some (.falls, s')) (b : Course) : a.andThen b s = a s := by
  rw [andThen_eq]
  split
  · rename_i t s' hrun
    exact absurd (congrArg Run.rest hrun) (h s')
  · rfl

/-- Whether a course falls. -/
theorem falls_or (a : Course) (s : Supply) :
    (∃ t s', a s = ⟨t, some (.falls, s')⟩) ∨ ∀ s', (a s).rest ≠ some (.falls, s') := by
  by_cases h : ∃ s', (a s).rest = some (.falls, s')
  · obtain ⟨s', h⟩ := h
    exact .inl ⟨(a s).trace, s', Run.ext rfl h⟩
  · exact .inr fun s' hs' => h ⟨s', hs'⟩

@[simp] theorem andThen_skip (a : Course) : a.andThen (skip .falls) = a := by
  funext s
  rcases falls_or a s with ⟨t, s', h⟩ | h
  · rw [andThen_of_falls h, h]
    exact Run.ext (List.append_nil t) rfl
  · rw [andThen_of_not_falls h]

theorem andThen_assoc (a b c : Course) :
    (a.andThen b).andThen c = a.andThen (b.andThen c) := by
  funext s
  rcases falls_or a s with ⟨t, s', h⟩ | h
  · rw [andThen_of_falls h]
    rcases falls_or b s' with ⟨t', s'', h'⟩ | h'
    · have hab : a.andThen b s = ⟨t ++ t', some (.falls, s'')⟩ := by
        rw [andThen_of_falls h, h']
        rfl
      rw [andThen_of_falls hab, andThen_of_falls h', Run.prepend_prepend]
    · have hab : a.andThen b s = (b s').prepend t := andThen_of_falls h b
      rw [andThen_of_not_falls h', andThen_of_not_falls (by rw [hab]; exact h'), hab]
  · have hab : a.andThen b s = a s := andThen_of_not_falls h b
    rw [andThen_of_not_falls h, andThen_of_not_falls (by rw [hab]; exact h), hab]

end Course

namespace Node

open Course

variable {tested : Nat → Option Expr}

theorem runAll_append (a b : List Node) :
    runAll tested (a ++ b) = (runAll tested a).andThen (runAll tested b) := by
  induction a with
  | nil => rfl
  | cons n a ih => rw [List.cons_append, runAll, runAll, ih, andThen_assoc]

@[simp] theorem runAll_singleton (n : Node) : runAll tested [n] = run tested n :=
  andThen_skip _

end Node

end Unscript
