import Unscript.Lifting
import Unscript.Proofs.Flow.Graph
import Unscript.Proofs.Script.Code

/-!
# Lifted blocks

An instruction of a registered dialect has an action and the operands that the action takes. If all
are legal, a block of them is not lifted only if some values are not on the stack. What its ending
tests or iterates is taken by its last instruction.

* `Operation.Suits`: an operation that an action is made for.
* `Instruction.Apt`: an instruction with an action and its operands.
* `Instruction.Sound`: an instruction that fails only for want of values.

Results:
* `Instruction.Conforms.apt`: instructions of a registered dialect are apt.
* `Instruction.Conforms.sound`: legal instructions of a registered dialect are sound.
* `Lifted.underflow_of_error`: why a block of sound instructions cannot be lifted.
* `Lifted.reported_of_error`: a block of apt instructions that cannot be lifted is reported.
* `Lifted.value_isSome`: a block that is lifted has the value for its ending.
-/

namespace Unscript

/-! ## Actions and operations -/

/-- Whether an action finds its operands among some. -/
def Action.takes (operands : Nat) : Action → Bool
  | .loadConst | .loadSlot | .loadMember | .loadGlobal | .storeSlot | .storeMember | .getAttr
  | .setAttr | .cast | .makeArray | .makeDictionary | .yield => 0 < operands
  | .callBuiltin | .callMethod | .callSelf => operands == 2
  | _ => true

/-- An operation that an action is made for: it has the operands of the action, two locals if it
begins an iterator, a target if it jumps, and it takes the value that it asks for from the stack. -/
structure Operation.Suits (op : Operation) (a : Action) : Prop where
  operands : a.takes op.operands.length
  value : op.transfer.asks → a = .consume
  slots : op.transfer = .iterBegin → 2 ≤ op.operands.count .slot
  target : op.transfer.aims → .jump ∈ op.operands

instance (op : Operation) (a : Action) : Decidable (op.Suits a) :=
  decidable_of_iff
    (a.takes op.operands.length ∧ (op.transfer.asks → a = .consume) ∧
      (op.transfer = .iterBegin → 2 ≤ op.operands.count .slot) ∧
      (op.transfer.aims → .jump ∈ op.operands))
    ⟨fun ⟨h1, h2, h3, h4⟩ => ⟨h1, h2, h3, h4⟩, fun ⟨h1, h2, h3, h4⟩ => ⟨h1, h2, h3, h4⟩⟩

/-- The operations of the standard data suit the actions of their mnemonics. -/
theorem Registry.suits_of_mem : ∀ op ∈ knownOperations,
    ∃ a ∈ Action.ofMnemonic? op.mnemonic, op.Suits a := by
  decide +kernel

/-! ## Instructions -/

/-- An instruction with an action and all that the action needs. -/
structure Instruction.Apt (i : Instruction) : Prop where
  action : ∃ a, Action.ofMnemonic? i.mnemonic = some a ∧ a.takes i.operands.length ∧
    (i.transfer.asks → a = .consume)
  length : i.operands.length = i.kinds.length
  slots : i.transfer = .iterBegin → 2 ≤ i.kinds.count .slot
  target : i.transfer.aims → .jump ∈ i.kinds

/-- An instruction of a dialect that fails only for want of values. -/
structure Instruction.Sound (d : Dialect) (i : Instruction) : Prop extends i.Apt where
  legal : d.missingFeature? i.mnemonic = none

namespace Instruction

variable {d : Dialect} {i : Instruction}

/-- Instructions of a registered dialect are apt, legal or not. -/
theorem Conforms.apt (hd : d.Regular) {locals : Nat} {pool : List Constant}
    (h : i.Conforms d locals pool) : i.Apt := by
  obtain ⟨op, hop, hmnemonic, hkinds, htransfer, -⟩ := h.operation
  obtain ⟨a, ha, hsuits⟩ := Registry.suits_of_mem op (hd.known hop)
  refine ⟨⟨a, hmnemonic ▸ ha, ?_, ?_⟩, h.length, ?_, ?_⟩
  · rw [h.length, hkinds]
    exact hsuits.operands
  · rw [htransfer]
    exact hsuits.value
  · rw [htransfer, hkinds]
    exact hsuits.slots
  · rw [htransfer, hkinds]
    exact hsuits.target

/-- **Legal instructions** of a registered dialect are sound. -/
theorem Conforms.sound (hd : d.Regular) {locals : Nat} {pool : List Constant}
    (h : i.Conforms d locals pool) (hlegal : d.isLegal i.mnemonic) : i.Sound d :=
  ⟨h.apt hd, Option.isNone_iff_eq_none.mp hlegal⟩

/-- An instruction has as many operands of a kind as it has the kind. -/
theorem operand?_isSome (hlength : i.operands.length = i.kinds.length) {kind : OperandKind}
    {nth : Nat} (h : nth < i.kinds.count kind) : (i.operand? kind nth).isSome := by
  have hcount : ((i.operands.zip i.kinds).filter (·.2 == kind)).length = i.kinds.count kind := by
    have hsnd := List.map_snd_zip (Nat.le_of_eq hlength.symm)
    conv_rhs => rw [← hsnd, List.count, List.countP_map]
    rw [← List.countP_eq_length_filter]
    rfl
  unfold operand?
  rw [Option.isSome_map, List.getElem?_eq_getElem (hcount ▸ h)]
  rfl

/-- Where an instruction jumps is its operand of that kind. -/
theorem exists_target? (hlength : i.operands.length = i.kinds.length) (h : .jump ∈ i.kinds) :
    ∃ t, i.target? = some t := by
  have hidx := List.idxOf_lt_length_of_mem h
  unfold target?
  rw [if_pos (List.contains_iff_mem.mpr h), List.getElem?_eq_getElem (hlength ▸ hidx)]
  exact ⟨_, rfl⟩

theorem mem_zip_of_target? {t : Nat} (ht : i.target? = some t) :
    (OperandKind.jump, t) ∈ i.kinds.zip i.operands := by
  unfold target? at ht
  split at ht
  · rename_i h
    have hidx := List.idxOf_lt_length_of_mem (List.contains_iff_mem.mp h)
    have hkind : i.kinds[i.kinds.idxOf .jump]? = some .jump := by
      rw [List.getElem?_eq_getElem hidx, List.getElem_idxOf]
    exact List.mem_of_getElem? (List.getElem?_zip_eq_some.mpr ⟨hkind, ht⟩)
  · cases ht

end Instruction

/-! ## Running instructions -/

/-- A computation that fails in one way only. -/
def FailsOnly {α : Type} (e : LiftFault) (x : Except LiftFault α) : Prop :=
  ∀ e', x = .error e' → e' = e

theorem failsOnly_ok {α : Type} (e : LiftFault) (a : α) : FailsOnly e (.ok a) :=
  fun _ h => by cases h

theorem failsOnly_error {α : Type} (e : LiftFault) : FailsOnly (α := α) e (.error e) :=
  fun _ h => by cases h; rfl

theorem FailsOnly.bind {α β : Type} {e : LiftFault} {x : Except LiftFault α}
    {f : α → Except LiftFault β} (hx : FailsOnly e x) (hf : ∀ a, FailsOnly e (f a)) :
    FailsOnly e (x >>= f) := by
  intro e' h
  cases x with
  | error =>
    cases h
    exact hx e' rfl
  | ok a => exact hf a e' h

namespace Symbolic

variable {d : Dialect} {s s' : Symbolic} {i : Instruction} {block : Nat} {e : LiftFault}

/-- An action that finds its operands fails only for want of values. -/
theorem failsOnly_run {a : Action} (htakes : a.takes i.operands.length) (s : Symbolic) :
    FailsOnly (.underflow i block) (s.run a i block) := by
  have ok {α : Type} (a : α) := failsOnly_ok (.underflow i block) a
  have fails {α : Type} := failsOnly_error (α := α) (.underflow i block)
  have pop (n : Nat) : FailsOnly (.underflow i block)
      ((s.pop? n).elim (.error (.underflow i block)) .ok) := by
    cases s.pop? n with
    | none => exact fails
    | some x => exact ok x
  have first (h : 0 < i.operands.length) : FailsOnly (.underflow i block)
      (i.operands[0]?.elim (.error .noOperand) .ok) := by
    rw [List.getElem?_eq_getElem h]
    exact ok _
  cases a with
  | nothing | loadSelf | breakpoint => exact ok _
  | loadConst | loadSlot | loadMember | loadGlobal =>
    exact (first (of_decide_eq_true htakes)).bind fun _ => ok _
  | storeSlot | storeMember | getAttr | setAttr | cast =>
    refine .bind ?_ fun _ => (first (of_decide_eq_true htakes)).bind fun _ => ok _
    split
    · exact ok _
    · exact fails
  | unary op | getIndex | setIndex | binary op | drop | assert | consume =>
    refine .bind ?_ fun _ => ok _
    split
    · exact ok _
    · exact fails
  | callBuiltin | callSelf =>
    obtain ⟨name, argc, heq⟩ := List.length_eq_two.mp (eq_of_beq htakes)
    refine .bind ?_ fun _ => (pop _).bind fun _ => ok _
    rw [heq]
    exact ok _
  | callMethod =>
    obtain ⟨name, argc, heq⟩ := List.length_eq_two.mp (eq_of_beq htakes)
    refine .bind ?_ fun _ => (pop _).bind fun _ => ?_
    · rw [heq]
      exact ok _
    · split
      · exact ok _
      · exact fails
  | makeArray | makeDictionary | yield =>
    exact (first (of_decide_eq_true htakes)).bind fun _ => (pop _).bind fun _ => ok _

theorem underflow_of_step (hi : i.Sound d) (h : step d block s i = .error e) :
    e = .underflow i block := by
  obtain ⟨a, ha, htakes, -⟩ := hi.action
  unfold step at h
  rw [hi.legal, ha] at h
  exact failsOnly_run htakes s e h

/-- An instruction that is not legal is reported, as is a want of values. -/
theorem reported_of_step (hi : i.Apt) (h : step d block s i = .error e) : e.diagnostic?.isSome := by
  obtain ⟨a, ha, htakes, -⟩ := hi.action
  unfold step at h
  split at h
  · cases h
    rfl
  · rw [ha] at h
    rw [failsOnly_run htakes s e h]
    rfl

/-- An instruction that asks for a value takes it. -/
theorem value_isSome_of_step (hi : i.Apt) (hasks : i.transfer.asks)
    (h : step d block s i = .ok s') : s'.value.isSome := by
  obtain ⟨a, ha, -, hconsume⟩ := hi.action
  unfold step at h
  split at h
  · cases h
  · rw [ha, hconsume hasks] at h
    obtain ⟨⟨value, rest⟩, -, h⟩ := Outcome.bind_eq_ok.mp h
    cases h
    rfl

end Symbolic

/-! ## Blocks -/

namespace Lifted

variable {d : Dialect} {is : List Instruction} {block : Nat}

/-- **Why a block** of sound instructions cannot be lifted: some values are not on the stack. -/
theorem underflow_of_error (h : ∀ i ∈ is, i.Sound d) {e : LiftFault}
    (he : ofInstructions d block is = .error e) : ∃ i ∈ is, e = .underflow i block := by
  unfold ofInstructions at he
  cases hrun : is.foldlM (Symbolic.step d block) {} with
  | ok s =>
    rw [hrun] at he
    cases he
  | error e' =>
    rw [hrun] at he
    cases he
    obtain ⟨i, hi, s, hs⟩ := Outcome.exists_of_foldlM_error hrun
    exact ⟨i, hi, Symbolic.underflow_of_step (h i hi) hs⟩

/-- A block of apt instructions that cannot be lifted is reported. -/
theorem reported_of_error (h : ∀ i ∈ is, i.Apt) {e : LiftFault}
    (he : ofInstructions d block is = .error e) : e.diagnostic?.isSome := by
  unfold ofInstructions at he
  cases hrun : is.foldlM (Symbolic.step d block) {} with
  | ok s =>
    rw [hrun] at he
    cases he
  | error e' =>
    rw [hrun] at he
    cases he
    obtain ⟨i, hi, s, hs⟩ := Outcome.exists_of_foldlM_error hrun
    exact Symbolic.reported_of_step (h i hi) hs

/-- **The value for the ending** of a block that is lifted is there if its last instruction asks for
one. -/
theorem value_isSome {i : Instruction} (hlast : is.getLast? = some i) (hi : i.Apt)
    (hasks : i.transfer.asks) {l : Lifted} (hl : ofInstructions d block is = .ok l) :
    l.value.isSome := by
  obtain ⟨init, rfl⟩ := List.getLast?_eq_some_iff.mp hlast
  unfold ofInstructions at hl
  cases hrun : (init ++ [i]).foldlM (Symbolic.step d block) {} with
  | error e =>
    rw [hrun] at hl
    cases hl
  | ok s =>
    rw [hrun] at hl
    cases hl
    rw [List.foldlM_append] at hrun
    obtain ⟨before, -, hrun⟩ := Outcome.bind_eq_ok.mp hrun
    obtain ⟨after, hstep, hafter⟩ := Outcome.bind_eq_ok.mp hrun
    cases hafter
    exact Symbolic.value_isSome_of_step hi hasks hstep

end Lifted

end Unscript
