import Unscript.Proofs.Lifting.Machine

/-!
# Steady runs

A load or a call stays on the stack of expressions until something takes it, and so it is evaluated
where it is taken. If a statement is made in between, the load is evaluated after a statement that
it came before. A run is steady if that never happens to a value that depends on the state.

* `Symbolic.steadyFrom`: whether a run is steady.
* `Instruction.Performs`: an instruction with its action.
* `Instruction.Straight`: instructions of which only the last one can transfer control.
* `Machine.Follows`: a stack of expressions that stands for a stack of values.

Results:
* `Machine.Follows.next`: what one instruction preserves.
* `Machine.run_steady`: a steady run of instructions does what the statements made of it do.
-/

namespace Unscript

/-! ## Steady runs -/

/-- Whether, from a stack on, no statement is made while a value that depends on the state waits. -/
def Symbolic.steadyFrom (d : Dialect) (block : Nat) : Symbolic → List Instruction → Bool
  | _, [] => true
  | s, i :: is =>
    match s.step d block i with
    | .ok s' =>
      (s'.statements.length == s.statements.length || s'.stack.all Expr.isFixed) &&
        steadyFrom d block s' is
    | .error _ => true

/-- Whether a block makes no statement while a value that depends on the state waits. -/
def Lifted.steady (d : Dialect) (block : Nat) (is : List Instruction) : Bool :=
  Symbolic.steadyFrom d block {} is

/-! ## Instructions and their actions -/

/-- An instruction whose action is one for its mnemonic. -/
structure Instruction.Performs (d : Dialect) (i : Instruction) (a : Action) : Prop
    extends i.Balanced d a where
  name : i.mnemonic ∈ a.mnemonics
  consumes : a = .consume → i.isBranch = true

/-- Instructions of a registered dialect have an action for their mnemonics. -/
theorem Instruction.Conforms.exists_performs {d : Dialect} (hd : d.Regular) {locals : Nat}
    {pool : List Constant} {i : Instruction} (h : i.Conforms d locals pool) :
    ∃ a, i.Performs d a := by
  obtain ⟨a, ha⟩ := h.exists_balanced hd
  obtain ⟨op, hop, hmnemonic, -, htransfer, -⟩ := h.operation
  have haction := ha.action
  rw [hmnemonic] at haction
  obtain ⟨hname, hbranch⟩ := Registry.mnemonics_of_mem op (hd.known hop) a haction
  refine ⟨a, ha, hmnemonic ▸ hname, fun hconsume => ?_⟩
  unfold Instruction.isBranch
  rw [htransfer]
  exact hbranch hconsume

namespace Symbolic

variable {d : Dialect} {block : Nat} {s s' : Symbolic} {i : Instruction} {a : Action}

/-- What an instruction that runs does: it takes the values on top and makes its product. -/
theorem exists_of_step (hi : i.Balanced d a) (hs : step d block s i = .ok s') :
    ∃ args rest, s.stack = args.reverse ++ rest ∧ args.length = a.effect.taken i.operands ∧
      s' = ({ s with stack := rest } : Symbolic).receive (a.product i args) := by
  have hlegal : d.missingFeature? i.mnemonic = none := by
    unfold step at hs
    split at hs
    · cases hs
    · assumption
  rw [step_eq hlegal hi.action hi.takes] at hs
  unfold pop? at hs
  split at hs
  · rename_i args rest hpop
    split at hpop
    · rename_i hle
      cases hpop
      refine ⟨_, s.stack.drop (a.effect.taken i.operands), ?_, ?_, (Except.ok.inj hs).symm⟩
      · rw [List.reverse_reverse, List.take_append_drop]
      · rw [List.length_reverse, List.length_take, Nat.min_eq_left hle]
    · cases hpop
  · cases hs

end Symbolic

/-- Instructions of which only the last one can transfer control. -/
def Instruction.Straight (is : List Instruction) : Prop :=
  ∀ i ∈ is.dropLast, i.isBranch = false

namespace Instruction.Straight

variable {d : Dialect} {i : Instruction} {a : Action} {is : List Instruction}

theorem tail (h : Straight (i :: is)) : Straight is := by
  intro j hj
  cases is with
  | nil => cases hj
  | cons k is => exact h j (List.mem_cons_of_mem _ hj)

/-- Only the last instruction takes a value for the ending. -/
theorem ne_consume (h : Straight (i :: is)) (hi : i.Performs d a) (hne : is ≠ []) :
    a ≠ .consume := by
  intro ha
  have hbranch := hi.consumes ha
  rw [h i (by rw [List.dropLast_cons_of_ne_nil hne]; exact List.mem_cons_self)] at hbranch
  cases hbranch

end Instruction.Straight

/-- Only an action that takes a value for the ending makes one. -/
theorem Action.eq_consume_of_product {a : Action} {i : Instruction} {args : List Expr} {e : Expr}
    (h : a.product i args = .value e) : a = .consume ∧ args = [e] := by
  unfold Action.product at h
  split at h <;> simp_all

/-! ## Following a run -/

namespace Machine

open Instruction (Straight)

variable {σ α : Type} {m : Machine σ α} {d : Dialect} {block : Nat} {s₀ : σ} {s s' : Symbolic}
  {f : Frame σ α} {i : Instruction} {a : Action} {is : List Instruction}

/-- A stack of expressions that stands for a stack of values: evaluated in order after the statements
made so far, the expressions have the values. Nothing was taken for the ending yet. -/
structure Follows (m : Machine σ α) (s₀ : σ) (s : Symbolic) (f : Frame σ α) : Prop where
  stack : eval.evalAll m s.stack.reverse (m.execAll s.statements s₀) = (f.stack.reverse, f.state)
  value : s.value = none
  taken : f.taken = none

theorem step_eq (hi : i.Balanced d a) {args rest : List α}
    (hstack : f.stack = args.reverse ++ rest) (hargs : args.length = a.effect.taken i.operands) :
    m.step d f i = (m.perform i args f.state).map (f.receive rest) := by
  have hn : (d.pops i).toNat = args.reverse.length := by
    rw [hi.pops, List.length_reverse, hargs]
    rfl
  unfold step
  dsimp only
  rw [hn, hstack, List.take_left, List.drop_left, List.reverse_reverse, if_pos (by simp)]

/-- **One instruction.** The values that wait below those it takes are evaluated first. -/
theorem Follows.step_eq (h : m.Follows s₀ s f) (hi : i.Performs d a) {args rest : List Expr}
    (hstack : s.stack = args.reverse ++ rest) (hargs : args.length = a.effect.taken i.operands)
    {vs : List α} {s₁ : σ}
    (hrest : eval.evalAll m rest.reverse (m.execAll s.statements s₀) = (vs, s₁)) :
    m.step d f i = some (f.receive vs.reverse (m.produce (a.product i args) s₁)) := by
  have hall := h.stack
  rw [hstack, List.reverse_append, List.reverse_reverse, evalAll_append, hrest] at hall
  obtain ⟨hvalues, hstate⟩ := Prod.mk.inj hall
  have hsplit : f.stack = (eval.evalAll m args s₁).1.reverse ++ vs.reverse := by
    rw [← List.reverse_append, hvalues, List.reverse_reverse]
  rw [Machine.step_eq hi.toBalanced hsplit (by rw [length_evalAll, hargs]), ← hstate,
    m.perform_product hi.name (Action.fits_of_length hi.takes hargs)]
  rfl

/-- An instruction that takes no value for the ending is followed if it makes no statement while a
value that depends on the state waits. -/
theorem Follows.next (h : m.Follows s₀ s f) (hi : i.Performs d a) (ha : a ≠ .consume)
    (hs : s.step d block i = .ok s')
    (hsteady : s'.statements.length = s.statements.length ∨ s'.stack.all Expr.isFixed) :
    ∃ f', m.step d f i = some f' ∧ m.Follows s₀ s' f' := by
  obtain ⟨args, rest, hstack, hargs, rfl⟩ := Symbolic.exists_of_step hi.toBalanced hs
  rcases hrest : eval.evalAll m rest.reverse (m.execAll s.statements s₀) with ⟨vs, s₁⟩
  refine ⟨_, h.step_eq hi hstack hargs hrest, ?_⟩
  cases hproduct : a.product i args with
  | nothing =>
    exact ⟨by simpa [Symbolic.receive, produce, Frame.receive] using hrest, h.value, h.taken⟩
  | push e =>
    refine ⟨?_, h.value, h.taken⟩
    simp only [Symbolic.receive, Symbolic.push, List.reverse_cons, evalAll_append, hrest, produce,
      Frame.receive, List.reverse_reverse]
    rfl
  | act stmt =>
    have hfixed : ∀ e ∈ rest.reverse, e.isFixed := by
      rw [hproduct] at hsteady
      simpa [Symbolic.receive, Symbolic.act] using hsteady
    -- The values that wait are the same before the statement and after it.
    obtain ⟨ws, hws⟩ := exists_evalAll_eq m rest.reverse hfixed
    rw [hws] at hrest
    obtain ⟨rfl, rfl⟩ := Prod.mk.inj hrest
    refine ⟨?_, h.value, h.taken⟩
    simp only [Symbolic.receive, Symbolic.act, execAll_concat, hws, produce, Frame.receive,
      List.reverse_reverse]
  | value e => exact absurd (Action.eq_consume_of_product hproduct).1 ha

/-- **Steady runs.** Instructions that are steady do what the statements made of them do. -/
theorem run_steady (hall : ∀ i ∈ is, ∃ a, i.Performs d a)
    (hstraight : Straight is) (h : m.Follows s₀ s f)
    (hrun : is.foldlM (Symbolic.step d block) s = .ok s') (hend : s'.stack = [])
    (hsteady : s.steadyFrom d block is) :
    ∃ f', is.foldlM (m.step d) f = some f' ∧
      (f'.state, f'.taken) = m.evalEnding s'.value (m.execAll s'.statements s₀) := by
  induction is generalizing s f with
  | nil =>
    cases hrun
    have hstack := h.stack
    rw [hend] at hstack
    refine ⟨f, rfl, ?_⟩
    rw [h.value, h.taken]
    exact Prod.ext (Prod.mk.inj hstack).2.symm rfl
  | cons i is ih =>
    obtain ⟨a, hi⟩ := hall i List.mem_cons_self
    rw [List.foldlM_cons] at hrun
    obtain ⟨s₁, hs₁, hrun⟩ := Outcome.bind_eq_ok.mp hrun
    rw [Symbolic.steadyFrom, hs₁] at hsteady
    simp only [Bool.and_eq_true, Bool.or_eq_true, beq_iff_eq] at hsteady
    rw [List.foldlM_cons]
    by_cases ha : a = .consume
    · -- The value for the ending is taken by the last instruction, from a stack that it empties.
      subst ha
      have hlast : is = [] := by
        by_contra hne
        exact hstraight.ne_consume hi hne rfl
      subst hlast
      cases hrun
      obtain ⟨args, rest, hstack, hargs, rfl⟩ := Symbolic.exists_of_step hi.toBalanced hs₁
      obtain ⟨e, rfl⟩ := List.length_eq_one_iff.mp hargs
      have hrest : rest = [] := hend
      subst hrest
      rw [h.step_eq hi hstack hargs rfl]
      exact ⟨_, rfl, rfl⟩
    · obtain ⟨f₁, hf₁, hnext⟩ := h.next hi ha hs₁ hsteady.1
      rw [hf₁]
      exact ih (fun j hj => hall j (List.mem_cons_of_mem _ hj)) hstraight.tail hnext hrun hsteady.2

end Machine

end Unscript
