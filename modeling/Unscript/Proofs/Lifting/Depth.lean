import Unscript.Proofs.Lifting.Effect
import Unscript.Proofs.Registry.Concrete
import Unscript.Proofs.Script.Instructions

/-!
# The depth of the stack

The table of operations tells, for every instruction, how many values it takes and how the depth of
the stack changes. Lifting keeps to the table: going through instructions from an empty stack, it
stops at the first one that takes more values than the table says are there, and if there is none
the depth that the table gives is what is left on the stack.

* `Dialect.pops`: how many values an instruction takes.
* `Instruction.depth`: how instructions change the depth.
* `Dialect.Covers`: a depth at which no instruction takes more values than are there.

Results:
* `Symbolic.run_covers`: what a run of instructions on a stack does.
* `Lifted.ofInstructions_iff_covers`: lifting and the table of operations agree.
-/

namespace Unscript

/-- How many values an instruction takes, by the table of operations. -/
def Dialect.pops (d : Dialect) (i : Instruction) : Int :=
  (d.operationAt? i.opcode).elim 0 fun op => op.stackPops i.operands

/-- How instructions change the depth of the stack, one after another. -/
def Instruction.depth (is : List Instruction) : Int :=
  (is.map (·.stackDelta)).sum

/-- From a depth on, no instruction takes more values than are there before it. -/
def Dialect.Covers (d : Dialect) (depth : Int) (is : List Instruction) : Prop :=
  ∀ before i after, is = before ++ i :: after → d.pops i ≤ depth + Instruction.depth before

/-- An instruction of a payload of the dialect, decoded in whole or in part. -/
def Dialect.Decodes (d : Dialect) (i : Instruction) : Prop :=
  ∃ payload bounds, ∃ f ∈ (Script.decode d payload bounds).functions, i ∈ f.instructions

namespace Dialect

variable {d : Dialect} {depth : Int} {i : Instruction} {is : List Instruction}

theorem covers_nil (d : Dialect) (depth : Int) : d.Covers depth [] := by
  intro before i after h
  cases before <;> cases h

theorem covers_cons :
    d.Covers depth (i :: is) ↔ d.pops i ≤ depth ∧ d.Covers (depth + i.stackDelta) is := by
  constructor
  · intro h
    refine ⟨by simpa [Instruction.depth] using h [] i is rfl, fun before j after hsplit => ?_⟩
    have := h (i :: before) j after (by rw [hsplit, List.cons_append])
    rwa [Instruction.depth, List.map_cons, List.sum_cons, ← Int.add_assoc] at this
  · rintro ⟨hfirst, hrest⟩ before j after hsplit
    cases before with
    | nil =>
      cases hsplit
      simpa [Instruction.depth] using hfirst
    | cons k before =>
      cases hsplit
      have := hrest before j after rfl
      rwa [Instruction.depth, List.map_cons, List.sum_cons, ← Int.add_assoc]

end Dialect

/-! ## One instruction -/

/-- An instruction whose action takes and leaves as many values as the table of operations says. -/
structure Instruction.Balanced (d : Dialect) (i : Instruction) (a : Action) : Prop where
  action : Action.ofMnemonic? i.mnemonic = some a
  takes : a.takes i.operands.length
  pops : d.pops i = a.effect.taken i.operands
  stackDelta : i.stackDelta = a.effect.pushes - a.effect.taken i.operands

/-- **Actions and the table agree** on all instructions of a registered dialect. -/
theorem Instruction.Conforms.exists_balanced {d : Dialect} (hd : d.Regular) {locals : Nat}
    {pool : List Constant} {i : Instruction} (h : i.Conforms d locals pool) :
    ∃ a, i.Balanced d a := by
  obtain ⟨op, hop, hmnemonic, hkinds, -, hdelta⟩ := h.operation
  obtain ⟨a, ha, hsuits, hgives⟩ := Registry.effect_of_mem op (hd.known hop)
  refine ⟨a, hmnemonic ▸ ha, ?_, ?_, ?_⟩
  · rw [h.length, hkinds]
    exact hsuits.operands
  · unfold Dialect.pops
    rw [hop]
    exact hgives.stackPops _
  · rw [hdelta]
    exact hgives.stackDelta _

theorem Dialect.Decodes.exists_balanced {d : Dialect} (hd : d.Registered) {i : Instruction}
    (h : d.Decodes i) : ∃ a, i.Balanced d a := by
  obtain ⟨payload, bounds, f, hf, hi⟩ := h
  obtain ⟨locals, pool, hconforms⟩ := Script.conforms_of_mem hf hi
  exact hconforms.exists_balanced hd.regular

namespace Symbolic

variable {d : Dialect} {i : Instruction} {a : Action} {is : List Instruction}

theorem length_receive_product {args : List Expr} (hfits : a.Fits i.operands args) (s : Symbolic) :
    (s.receive (a.product i args)).stack.length = s.stack.length + a.effect.pushes := by
  generalize hoperands : i.operands = operands at hfits
  cases hfits <;> simp [Action.product, Action.effect, receive, push, act, hoperands]

/-- An instruction runs if the values that it takes are there, and changes the depth as the table of
operations says; else it is named as the one that they are missing for. -/
theorem step_balanced (hlegal : d.missingFeature? i.mnemonic = none) (h : i.Balanced d a)
    (s : Symbolic) (block : Nat) :
    if d.pops i ≤ s.stack.length then
      ∃ s', step d block s i = .ok s' ∧ (s'.stack.length : Int) = s.stack.length + i.stackDelta
    else step d block s i = .error (.underflow i block) := by
  rw [step_eq hlegal h.action h.takes, h.pops, h.stackDelta]
  unfold pop?
  by_cases hle : a.effect.taken i.operands ≤ s.stack.length
  · rw [if_pos hle, if_pos (by exact_mod_cast hle)]
    refine ⟨_, rfl, ?_⟩
    rw [length_receive_product (Action.fits_of_length h.takes (by simp [hle]))]
    simp only [List.length_drop]
    omega
  · rw [if_neg hle, if_neg (by exact_mod_cast hle)]

/-! ## A run -/

/-- **A run.** Either the values are there for every instruction, and the depth changes as the table
of operations says, or the run stops at the first instruction that they are missing for. -/
theorem run_covers (hbalanced : ∀ i ∈ is, ∃ a, i.Balanced d a)
    (hlegal : ∀ i ∈ is, d.missingFeature? i.mnemonic = none) (s : Symbolic) (block : Nat) :
    (d.Covers s.stack.length is ∧ ∃ s', is.foldlM (step d block) s = .ok s' ∧
      (s'.stack.length : Int) = s.stack.length + Instruction.depth is) ∨
    ∃ before i after, is = before ++ i :: after ∧ d.Covers s.stack.length before ∧
      s.stack.length + Instruction.depth before < d.pops i ∧
      is.foldlM (step d block) s = .error (.underflow i block) := by
  induction is generalizing s with
  | nil => exact .inl ⟨d.covers_nil _, s, rfl, by simp [Instruction.depth]⟩
  | cons i is ih =>
    obtain ⟨a, ha⟩ := hbalanced i List.mem_cons_self
    have hstep := step_balanced (hlegal i List.mem_cons_self) ha s block
    rw [List.foldlM_cons]
    by_cases hle : d.pops i ≤ s.stack.length
    · rw [if_pos hle] at hstep
      obtain ⟨s₁, hs₁, hlen⟩ := hstep
      rw [hs₁]
      have hrest := ih (fun j hj => hbalanced j (List.mem_cons_of_mem _ hj))
        (fun j hj => hlegal j (List.mem_cons_of_mem _ hj)) s₁
      rw [hlen] at hrest
      rcases hrest with ⟨hcovers, s', hs', hlen'⟩ | ⟨before, j, after, rfl, hcovers, hlt, herror⟩
      · refine .inl ⟨Dialect.covers_cons.mpr ⟨hle, hcovers⟩, s', hs', ?_⟩
        rw [hlen', Instruction.depth, Instruction.depth, List.map_cons, List.sum_cons,
          Int.add_assoc]
      · refine .inr ⟨i :: before, j, after, rfl, Dialect.covers_cons.mpr ⟨hle, hcovers⟩, ?_,
          herror⟩
        rwa [Instruction.depth, List.map_cons, List.sum_cons, ← Int.add_assoc]
    · rw [if_neg hle] at hstep
      refine .inr ⟨[], i, is, rfl, d.covers_nil _, ?_, ?_⟩
      · simpa [Instruction.depth] using hle
      · rw [hstep]
        rfl

end Symbolic

namespace Lifted

/-- **Lifting keeps to the table of operations.** Decoded instructions of a registered dialect that
are legal are lifted exactly when none of them takes more values than are there before it; then the
values left are as many as the table says. Otherwise the first one that does is named. -/
theorem ofInstructions_iff_covers {d : Dialect} (hd : d.Registered) {is : List Instruction}
    (hdecoded : ∀ i ∈ is, d.Decodes i) (hlegal : ∀ i ∈ is, d.isLegal i.mnemonic) (block : Nat) :
    ((∃ l, ofInstructions d block is = .ok l) ↔ d.Covers 0 is) ∧
    (∀ l, ofInstructions d block is = .ok l → (l.residue : Int) = Instruction.depth is) ∧
    ∀ e, ofInstructions d block is = .error e → ∃ before i after, is = before ++ i :: after ∧
      d.Covers 0 before ∧ Instruction.depth before < d.pops i ∧ e = .underflow i block := by
  have hrun := Symbolic.run_covers (d := d) (fun i hi => (hdecoded i hi).exists_balanced hd)
    (fun i hi => Option.isNone_iff_eq_none.mp (hlegal i hi)) {} block
  simp only [List.length_nil, Nat.cast_zero, Int.zero_add] at hrun
  unfold ofInstructions
  rcases hrun with ⟨hcovers, s, hs, hlen⟩ | ⟨before, i, after, rfl, hcovers, hlt, herror⟩
  · rw [hs]
    refine ⟨⟨fun _ => hcovers, fun _ => ⟨_, rfl⟩⟩, fun l hl => ?_, fun e he => by cases he⟩
    cases hl
    exact hlen
  · rw [herror]
    refine ⟨⟨fun ⟨l, hl⟩ => (by cases hl), fun hall => ?_⟩, fun l hl => (by cases hl), fun e he => ?_⟩
    · have := hall before i after rfl
      omega
    · cases he
      exact ⟨before, i, after, rfl, hcovers, hlt, rfl⟩

/-- Two instructions of a payload of the oldest dialect, of which the second takes more values than
the first leaves. -/
theorem ofInstructions_iff_covers_add : ∃ is : List Instruction,
    is.map (·.mnemonic) = ["LOAD_CONST", "ADD"] ∧
      ((∃ l, ofInstructions Registry.oldest 0 is = .ok l) ↔ Registry.oldest.Covers 0 is) ∧
      (∀ l, ofInstructions Registry.oldest 0 is = .ok l →
        (l.residue : Int) = Instruction.depth is) ∧
      ∀ e, ofInstructions Registry.oldest 0 is = .error e →
        ∃ before i after, is = before ++ i :: after ∧ Registry.oldest.Covers 0 before ∧
          Instruction.depth before < Registry.oldest.pops i ∧ e = .underflow i 0 := by
  let payload : List UInt8 :=
    [1, 0, 0, 0, 0, 0, 0, 0, 0, 0, 0, 0, 0, 0, 0, 1, 0, 0, 4, 0, 0, 0, 1, 0, 0, 12]
  refine ⟨(Script.decode Registry.oldest payload).functions.flatMap (·.instructions),
    by decide +kernel, ofInstructions_iff_covers (Dialect.registered_of_mem Registry.oldest_mem)
      (fun i hi => ?_) (by decide +kernel) 0⟩
  obtain ⟨f, hf, hi⟩ := List.mem_flatMap.mp hi
  exact ⟨payload, {}, f, hf, hi⟩

end Lifted

end Unscript
