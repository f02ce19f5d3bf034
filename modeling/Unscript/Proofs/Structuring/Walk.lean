import Unscript.Structuring.Construct
import Unscript.Proofs.Outcome

/-!
# Parts of the walk

What a part of the walk does is told by its result, by the blocks that are visited and by the count
of steps; the notes, the jumps and which blocks were lifted before have no influence on it.

* `Plan.lift`: what a block is lifted to.
* `Plan.Answers`: a function over which the walk fails with a report only.
* `Plan.Fit`: a function for which no part of the walk fails.
* `Structuring.Does`: what a part of the walk does, unless it fails as it may.

Results:
* `Structuring.Does.bind`: what a sequence does.
* `Structuring.does_lift?`, `does_raw`, `does_step`, `does_needed`: what the single parts do.
-/

namespace Unscript

namespace Plan

/-- What a block is lifted to. -/
def lift (p : Plan) (id : Nat) : Except LiftFault Lifted :=
  Lifted.ofInstructions p.dialect id (p.instructions id)

/-- The value that a block tests. -/
def tested (p : Plan) (id : Nat) : Option Expr :=
  (p.lift id).toOption.bind (·.value)

/-- A block without structure. -/
def rawOf (p : Plan) (id : Nat) (reason : RawReason) : RawNode where
  reason := reason
  block := some id
  instructions := p.instructions id
  statements := (p.lift id).toOption.map (·.statements)
  ending := (p.flow.ending id).kind
  value := p.tested id
  gotos := (p.flow.ending id).destinations

/-- A function over which the walk fails with a report only: blocks that cannot be lifted are reported,
and endings find the values and the locals that they need. -/
structure Answers (p : Plan) : Prop where
  lifts : ∀ id e, p.lift id = .error e → e.diagnostic?.isSome
  value : ∀ id l, p.lift id = .ok l →
    (p.flow.ending id).kind = .cond ∨ (p.flow.ending id).kind = .iterBegin → l.value.isSome
  slots : ∀ id, (p.flow.ending id).kind = .iterBegin → (Construct.iteratorSlots? p id).isSome

/-- A function for which no part of the walk fails: also, blocks fail to lift only for want of values on
the stack, and the budget is the default. -/
structure Fit (p : Plan) : Prop extends p.Answers where
  budget : p.options.maxSteps = none
  underflow : ∀ id e, p.lift id = .error e → ∃ i block, e = .underflow i block

end Plan

namespace Structuring

/-- How a part of the walk may fail. -/
structure Fails (p : Plan) (e : StructureFault) : Prop where
  unfit : ¬ p.Fit
  reported : p.Answers → e.diagnostic?.isSome

theorem fails_of_not {p : Plan} {e : StructureFault} (h : ¬ p.Answers) : Fails p e :=
  ⟨fun hfit => h hfit.toAnswers, fun ha => absurd ha h⟩

/-- What is known of the state of the walk: the lifted blocks are what they are lifted to, and the
visited blocks and the count of steps are given. -/
structure Holds (p : Plan) (visited : BlockSet) (steps : Nat) (w : Walk) : Prop where
  lifted : ∀ id l, w.lifted.lookup id = some l → p.lift id = .ok l
  visited : w.visited = visited
  steps : w.steps = steps

/-- What a part of the walk does from given visited blocks and a given count of steps: its result
and the new ones are as said, unless it fails as it may. -/
def Does {α : Type} (p : Plan) (m : Structuring α) (visited : BlockSet) (steps : Nat)
    (Q : α → BlockSet → Nat → Prop) : Prop :=
  ∀ w, Holds p visited steps w →
    match m.run.run w with
    | (.ok a, w') => ∃ visited' steps', Holds p visited' steps' w' ∧ Q a visited' steps'
    | (.error e, _) => Fails p e

variable {α β : Type} {p : Plan} {V : BlockSet} {n : Nat} {Q : α → BlockSet → Nat → Prop}

/-! ## Rules -/

theorem does_pure {a : α} (h : Q a V n) : Does p (pure a) V n Q :=
  fun _ hw => ⟨V, n, hw, h⟩

theorem does_throw {e : StructureFault} (h : Fails p e) :
    Does p (throw e : Structuring α) V n Q :=
  fun _ _ => h

/-- A sequence does what its second part does after the first. -/
theorem Does.bind {m : Structuring α} {k : α → Structuring β} {R : β → BlockSet → Nat → Prop}
    (h : Does p m V n fun a V' n' => Does p (k a) V' n' R) : Does p (m >>= k) V n R := by
  intro w hw
  have hm := h w hw
  rw [Outcome.run_bind]
  cases hresult : m.run.run w with
  | mk r w' =>
    rw [hresult] at hm
    cases r with
    | error e => exact hm
    | ok a =>
      obtain ⟨V', n', hw', hk⟩ := hm
      exact hk w' hw'

theorem Does.mono {m : Structuring α} {R : α → BlockSet → Nat → Prop} (hm : Does p m V n Q)
    (h : ∀ a V' n', Q a V' n' → R a V' n') : Does p m V n R := by
  intro w hw
  have hrun := hm w hw
  cases hresult : m.run.run w with
  | mk r w' =>
    rw [hresult] at hrun
    cases r with
    | error e => exact hrun
    | ok a =>
      obtain ⟨V', n', hw', hq⟩ := hrun
      exact ⟨V', n', hw', h a V' n' hq⟩

theorem does_map {m : Structuring α} {g : α → β} {R : β → BlockSet → Nat → Prop}
    (hm : Does p m V n fun a V' n' => R (g a) V' n') : Does p (g <$> m) V n R := by
  rw [← bind_pure_comp]
  exact (hm.mono fun _ _ _ h => does_pure h).bind

theorem does_get {k : Walk → Structuring α} (h : ∀ w, Holds p V n w → Does p (k w) V n Q) :
    Does p (get >>= k) V n Q :=
  fun w hw => h w hw w hw

theorem does_modify {u : Walk → Walk} {V' : BlockSet} {n' : Nat} {Q : Unit → BlockSet → Nat → Prop}
    (hu : ∀ w, Holds p V n w → Holds p V' n' (u w)) (h : Q () V' n') :
    Does p (modify u) V n Q :=
  fun w hw => ⟨V', n', hu w hw, h⟩

/-! ## Single parts -/

variable {Q : Unit → BlockSet → Nat → Prop}

theorem does_note {text : String} (h : Q () V n) : Does p (note text) V n Q :=
  does_modify (fun _ hw => ⟨hw.lifted, hw.visited, hw.steps⟩) h

theorem does_aim {targets : List Nat} (h : Q () V n) : Does p (aim targets) V n Q :=
  does_modify (fun _ hw => ⟨hw.lifted, hw.visited, hw.steps⟩) h

theorem does_visit {id : Nat} (h : Q () (V.insert id) n) : Does p (visit id) V n Q :=
  does_modify (fun _ hw => ⟨hw.lifted, by rw [hw.visited], hw.steps⟩) h

/-- A step counts, and the default budget allows it while there are few. -/
theorem does_step {id : Nat} (hn : n < 8 * p.flow.graph.size + 64) (h : Q () V (n + 1)) :
    Does p (step p id) V n Q := by
  have hcount (w : Walk) (hw : Holds p V n w) :
      Holds p V (n + 1) { w with begun := id :: w.begun } :=
    ⟨hw.lifted, hw.visited, congrArg Nat.succ hw.steps⟩
  refine .bind (does_modify hcount (does_get fun w hw => ?_))
  split
  · rename_i hbudget
    refine does_throw ⟨fun hfit => ?_, fun _ => rfl⟩
    rw [hw.steps, Plan.budget, hfit.budget, Option.getD_none] at hbudget
    omega
  · exact does_pure h

theorem does_needed {id : Nat} {value : Option Expr} {Q : Expr → BlockSet → Nat → Prop}
    (hvalue : p.Answers → value.isSome) (h : ∀ e, value = some e → Q e V n) :
    Does p (needed id value) V n Q := by
  cases value with
  | none => exact does_throw (fails_of_not fun hp => Bool.false_ne_true (hvalue hp))
  | some e => exact does_pure (h e rfl)

/-- Lifting a block gives what it is lifted to, and changes nothing. -/
theorem does_attempt {id : Nat} {Q : Except LiftFault Lifted → BlockSet → Nat → Prop}
    (h : Q (p.lift id) V n) : Does p (attempt p id) V n Q := by
  refine does_get fun w hw => ?_
  split
  · rename_i l hl
    exact does_pure (hw.lifted id l hl ▸ h)
  · change Q (Lifted.ofInstructions p.dialect id (p.instructions id)) V n at h
    split
    · rename_i l hl
      rw [hl] at h
      have hkeep (w : Walk) (hw : Holds p V n w) : Holds p V n
          { w with lifted := w.lifted ++ [(id, l)], notes := w.notes ++ l.notes id } := by
        refine ⟨fun j k hk => ?_, hw.visited, hw.steps⟩
        rw [List.lookup_append, Option.or_eq_some_iff] at hk
        rcases hk with hk | ⟨-, hk⟩
        · exact hw.lifted j k hk
        · rw [List.lookup_cons, List.lookup_nil] at hk
          split at hk
          · rename_i hj
            cases hk
            rw [eq_of_beq hj]
            exact hl
          · cases hk
      exact .bind (does_modify hkeep (does_pure h))
    · rename_i e he
      rw [he] at h
      exact does_pure h

/-- What lifting gives where only a want of values may prevent it. -/
def Lifts (p : Plan) (id : Nat) : Option Lifted → Prop
  | some l => p.lift id = .ok l
  | none => ∃ i block, p.lift id = .error (.underflow i block)

theorem does_lift? {id : Nat} {Q : Option Lifted → BlockSet → Nat → Prop}
    (h : ∀ l, Lifts p id l → Q l V n) : Does p (lift? p id) V n Q := by
  refine .bind (does_attempt ?_)
  split
  · rename_i l hl
    exact does_pure (h _ hl)
  · rename_i i block he
    exact .bind (does_note (does_pure (h none ⟨i, block, he⟩)))
  · rename_i e hne he
    refine does_throw ⟨fun hfit => ?_, fun ha => ha.lifts id e he⟩
    obtain ⟨i, block, heq⟩ := hfit.underflow id _ he
    exact hne i block heq

/-- A block without structure is visited. -/
theorem does_raw {id : Nat} {reason : RawReason} {Q : Node → BlockSet → Nat → Prop}
    (h : Q (.raw (p.rawOf id reason)) (V.insert id) n) : Does p (raw p id reason) V n Q := by
  unfold Plan.rawOf Plan.tested at h
  refine .bind (does_visit (.bind (does_attempt ?_)))
  cases hl : p.lift id with
  | ok l =>
    rw [hl] at h
    exact .bind (does_pure (.bind (does_aim (does_pure h))))
  | error e =>
    rw [hl] at h
    dsimp only
    split
    · exact .bind (does_note (.bind (does_pure (.bind (does_aim (does_pure h))))))
    · rename_i hnone
      refine .bind (does_throw (fails_of_not fun ha => ?_))
      have hsome := ha.lifts id e hl
      rw [hnone] at hsome
      cases hsome

theorem does_goto {target : Nat} {reason : RawReason} {Q : Node → BlockSet → Nat → Prop}
    (h : Q (.raw { reason, gotos := [target] }) V n) : Does p (goto target reason) V n Q :=
  .bind (does_aim (does_pure h))

end Structuring

end Unscript
