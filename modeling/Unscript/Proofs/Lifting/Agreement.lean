import Unscript.Proofs.Flow.Analysis
import Unscript.Proofs.Flow.Transfers
import Unscript.Proofs.Lifting.Clock

/-!
# Lifted blocks and stack machines

A block that is lifted does what its instructions do, whatever they mean, exactly when no statement
is made while a value that depends on the state waits on the stack. That does happen: the load of a
local waits while the local is stored.

Results:
* `Lifted.agrees_iff_steady`: when a lifted block does what its instructions do.
-/

namespace Unscript

/-! ## Blocks -/

namespace Lifted

open Instruction (Straight)

/-- **Lifted instructions.** What is made of instructions that leave no values does what they do,
whatever they mean, exactly when they are steady. -/
theorem agrees_iff_steady_of_performs {d : Dialect} {block : Nat} {is : List Instruction}
    (hall : ∀ i ∈ is, ∃ a, i.Performs d a) (hstraight : Straight is) {l : Lifted}
    (hl : ofInstructions d block is = .ok l) (hresidue : l.residue = 0) :
    (∀ (σ α : Type) (m : Machine σ α) (s : σ), m.run d is s = some (m.runLifted l s)) ↔
      steady d block is := by
  unfold ofInstructions at hl
  cases hrun : is.foldlM (Symbolic.step d block) {} with
  | error e =>
    rw [hrun] at hl
    cases hl
  | ok s' =>
    rw [hrun] at hl
    cases hl
    have hend : s'.stack = [] := List.length_eq_zero_iff.mp hresidue
    have hlifted {σ α : Type} (m : Machine σ α) (s : σ) : m.runLifted (ofSymbolic is s') s =
        m.evalEnding s'.value (m.execAll s'.statements s) := by
      simp [Machine.runLifted, ofSymbolic, residueOf, hend]
    constructor
    · intro hagrees
      by_contra hsteady
      have hagree := hagrees _ _ Machine.clock []
      have hstart : Machine.clock.Follows [] {} { state := [] } := ⟨rfl, rfl, rfl⟩
      obtain ⟨f, hf, hstale, hlength⟩ := Machine.exists_stale hall hstraight hstart hrun
        (Bool.eq_false_of_not_eq_true hsteady)
      unfold Machine.run at hagree
      rw [hf, hlifted] at hagree
      rw [hend] at hlength
      exact Machine.not_stale_of_eq (List.length_eq_zero_iff.mp hlength) (Option.some.inj hagree)
        hstale
    · intro hsteady σ α m s
      have hstart : m.Follows s {} { state := s } := ⟨rfl, rfl, rfl⟩
      obtain ⟨f, hf, heq⟩ := Machine.run_steady hall hstraight hstart hrun hend hsteady
      unfold Machine.run
      rw [hf, hlifted, ← heq]
      rfl

/-- Only the last instruction of a block can transfer control. -/
theorem straight_of_build {is : List Instruction} {length : Option Nat} {flow : Flow}
    (h : Flow.build is length = .ok flow) (b : Nat) : Straight (flow.block b).instructions := by
  obtain ⟨ds, -, -, hcut⟩ := Graph.cut_destinations (Flow.graph_of_build h).1
  exact fun i hi => hcut.not_isBranch (hcut.lt_exit (List.dropLast_subset _ hi)) hi

/-- **Lifted blocks and stack machines.** A block of decoded instructions, lifted without values
left, does what its instructions do, whatever they mean, exactly when it makes no statement while a
value that depends on the state waits on the stack. -/
theorem agrees_iff_steady {d : Dialect} (hd : d.Registered) {payload : List UInt8} {f : Function}
    (hf : f ∈ (Script.decode d payload).functions) {length : Option Nat} {flow : Flow}
    (hflow : Flow.build f.instructions length = .ok flow) {b : Nat} {l : Lifted}
    (hl : ofInstructions d b (flow.block b).instructions = .ok l) (hresidue : l.residue = 0) :
    (∀ (σ α : Type) (m : Machine σ α) (s : σ),
      m.run d (flow.block b).instructions s = some (m.runLifted l s)) ↔
      steady d b (flow.block b).instructions := by
  obtain ⟨starts, hcut⟩ := Graph.cut_of_ofStream (Flow.graph_of_build hflow).1
  refine agrees_iff_steady_of_performs (fun i hi => ?_) (straight_of_build hflow b) hl hresidue
  obtain ⟨locals, pool, hconforms⟩ := Script.conforms_of_mem hf (hcut.mem_instructions hi)
  exact hconforms.exists_performs hd.regular

/-- A payload of the oldest dialect that copies a local and returns the copy. -/
def copiedLocal : List UInt8 :=
  [1, 0, 0, 0, 0, 0, 0, 0, 0, 0, 0, 2, 0, 0, 0, 0, 0, 7, 0, 0, 0, 2, 0, 3, 1, 2, 1, 44]

theorem agrees_iff_steady_copiedLocal : ∃ f ∈ (Script.decode Registry.oldest copiedLocal).functions,
    f.complete ∧ ∃ flow, Flow.build f.instructions (some f.codeLength) = .ok flow ∧
      ∃ l, ofInstructions Registry.oldest 0 (flow.block 0).instructions = .ok l ∧
        l.residue = 0 ∧ l.statements.length = 1 ∧
        ((∀ (σ α : Type) (m : Machine σ α) (s : σ),
          m.run Registry.oldest (flow.block 0).instructions s = some (m.runLifted l s)) ↔
          steady Registry.oldest 0 (flow.block 0).instructions) := by
  have hfound : ((Script.decode Registry.oldest copiedLocal).functions.any fun f => f.complete &&
      (Flow.build f.instructions (some f.codeLength)).toOption.any fun flow =>
        (ofInstructions Registry.oldest 0 (flow.block 0).instructions).toOption.any fun l =>
          l.residue == 0 && l.statements.length == 1) = true := by
    decide +kernel
  obtain ⟨f, hf, hfound⟩ := List.any_eq_true.mp hfound
  obtain ⟨hcomplete, hfound⟩ := Bool.and_eq_true_iff.mp hfound
  obtain ⟨flow, hflow, hfound⟩ := (Option.any_eq_true _ _).mp hfound
  obtain ⟨l, hl, hfound⟩ := (Option.any_eq_true _ _).mp hfound
  obtain ⟨hresidue, hlength⟩ := Bool.and_eq_true_iff.mp hfound
  have hflow := Outcome.toOption_eq_some.mp hflow
  have hl := Outcome.toOption_eq_some.mp hl
  exact ⟨f, hf, hcomplete, flow, hflow, l, hl, eq_of_beq hresidue, eq_of_beq hlength,
    agrees_iff_steady (Dialect.registered_of_mem Registry.oldest_mem) hf hflow hl
      (eq_of_beq hresidue)⟩

end Lifted

/-! ## Values that are taken too late -/

/-- The machine that knows locals only; all values are numbers. -/
def Machine.locals : Machine (Nat → Nat) Nat where
  const index := index
  bool b := b.toNat
  self := 0
  slot k s := s k
  member _ _ := 0
  global _ _ := 0
  attr _ _ _ := 0
  index _ _ _ := 0
  binary _ _ _ := 0
  unary _ _ := 0
  cast v _ := v
  array _ := 0
  dictionary _ := 0
  builtin _ _ s := (0, s)
  method _ _ _ s := (0, s)
  call _ _ s := (0, s)
  yield _ s := (0, s)
  storeSlot k v s := fun j => if j = k then v else s j
  storeMember _ _ s := s
  storeAttr _ _ _ s := s
  storeIndex _ _ _ s := s
  discard _ s := s
  assert _ s := s
  breakpoint s := s

namespace Lifted

/-- A payload of the oldest dialect that loads local 0 and a constant, stores the constant in local 0
and then what was loaded in local 1. -/
def overtakenLoad : List UInt8 :=
  [1, 0, 0, 0, 0, 0, 0, 0, 0, 0, 0, 2, 0, 0, 0, 1, 0, 0, 9, 0, 0, 0, 2, 0, 1, 0, 0, 3, 0, 3, 1]

/-- Not every lifted block without values left does what its instructions do. -/
theorem not_forall_run_eq_runLifted :
    ¬ ∀ d ∈ Registry.standard.dialects, ∀ payload, ∀ f ∈ (Script.decode d payload).functions,
      f.complete → ∀ flow, Flow.build f.instructions (some f.codeLength) = .ok flow →
      ∀ b < flow.exit, ∀ l, ofInstructions d b (flow.block b).instructions = .ok l →
        l.residue = 0 → ∀ (σ α : Type) (m : Machine σ α) (s : σ),
          m.run d (flow.block b).instructions s = some (m.runLifted l s) := by
  intro h
  have hfound : ((Script.decode Registry.oldest overtakenLoad).functions.any fun f => f.complete &&
      (Flow.build f.instructions (some f.codeLength)).toOption.any fun flow =>
        0 < flow.exit &&
        (ofInstructions Registry.oldest 0 (flow.block 0).instructions).toOption.any fun l =>
          l.residue == 0 &&
          ((Machine.locals.run Registry.oldest (flow.block 0).instructions (· + 7)).map
            fun r => r.1 1) != some ((Machine.locals.runLifted l (· + 7)).1 1)) = true := by
    decide +kernel
  obtain ⟨f, hf, hfound⟩ := List.any_eq_true.mp hfound
  obtain ⟨hcomplete, hfound⟩ := Bool.and_eq_true_iff.mp hfound
  obtain ⟨flow, hflow, hfound⟩ := (Option.any_eq_true _ _).mp hfound
  obtain ⟨hexit, hfound⟩ := Bool.and_eq_true_iff.mp hfound
  obtain ⟨l, hl, hfound⟩ := (Option.any_eq_true _ _).mp hfound
  obtain ⟨hresidue, hdiffer⟩ := Bool.and_eq_true_iff.mp hfound
  rw [h Registry.oldest Registry.oldest_mem overtakenLoad f hf hcomplete flow
    (Outcome.toOption_eq_some.mp hflow) 0 (of_decide_eq_true hexit) l
    (Outcome.toOption_eq_some.mp hl) (eq_of_beq hresidue) _ _ Machine.locals (· + 7)] at hdiffer
  simp at hdiffer

end Lifted

end Unscript
