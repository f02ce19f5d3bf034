import Unscript.Proofs.Script.Code

/-!
# Decoded instructions and constants

Whatever stops the decoding of a function or of its unit, and however much was asked for, the
instructions that were decoded are instructions of the dialect with operands in range, and the
constants are of kinds that an encoding provides for.

* `Reading.Ensures`: a reading whose results have a property.
* `Constant.isForeign`: a constant of a kind that no encoding provides for.

Results:
* `Script.conforms_of_mem`: every instruction of every function of a decoded unit conforms to the
  dialect.
* `Script.isForeign_of_mem`: no constant of a decoded unit is foreign.
-/

namespace Unscript

namespace Reading

variable {α β : Type}

/-- A reading whose results have a property. -/
def Ensures (r : Reading α) (P : α → Prop) : Prop :=
  ∀ ⦃c c' : Cursor⦄ ⦃a : α⦄, r.runFrom c = (.ok a, c') → P a

theorem Ensures.any (r : Reading α) : r.Ensures fun _ => True :=
  fun _ _ _ _ => trivial

theorem Ensures.pure {P : α → Prop} {a : α} (h : P a) : Ensures (pure a) P := by
  intro c c' b hb
  cases hb
  exact h

theorem Ensures.bind {r : Reading α} {f : α → Reading β} {Q : α → Prop} {P : β → Prop}
    (hr : r.Ensures Q) (hf : ∀ a, Q a → (f a).Ensures P) : (r >>= f).Ensures P := by
  intro c c' b h
  obtain ⟨a, c₁, ha, hb⟩ := runFrom_bind_ok h
  exact hf a (hr ha) hb

/-- A sequence whose first part can be anything. -/
theorem Ensures.after {r : Reading α} {f : α → Reading β} {P : β → Prop}
    (hf : ∀ a, (f a).Ensures P) : (r >>= f).Ensures P :=
  (Ensures.any r).bind fun a _ => hf a

theorem Ensures.failAt {P : α → Prop} {offset : Nat} {fault : DecodeFault} :
    Ensures (failAt offset fault) P := by
  intro c c' a h
  cases h

theorem Ensures.mono {r : Reading α} {P Q : α → Prop} (hr : r.Ensures P) (h : ∀ a, P a → Q a) :
    r.Ensures Q :=
  fun _ _ _ ha => h _ (hr ha)

end Reading

/-- Whether a constant is of a kind that no encoding provides for. -/
def Constant.isForeign : Constant → Bool
  | .foreign _ => true
  | _ => false

namespace Decode

open Reading (Ensures)

variable {α : Type} {d : Dialect} {locals : Nat} {pool : List Constant} {start codeEnd : Nat}

/-! ## Instructions -/

/-- Operands that are read have their kinds, and are in range. -/
theorem operands_ensures (mnemonic : String) (kinds : List OperandKind) :
    (kinds.mapM (operand d locals pool mnemonic codeEnd)).Ensures fun placed =>
      placed.map (·.kind) = kinds ∧
        ∀ p ∈ placed, operandFault? d locals pool p.kind p.value = none := by
  induction kinds with
  | nil => exact .pure ⟨rfl, by simp⟩
  | cons kind kinds ih =>
    rw [List.mapM_cons]
    refine .bind (Q := fun p => p.kind = kind ∧
      operandFault? d locals pool p.kind p.value = none) ?_ fun p hp => ?_
    · refine .after fun position => .after fun value => ?_
      split
      · exact .failAt
      · rename_i hfault
        exact .pure ⟨rfl, hfault⟩
    · refine .bind ih fun placed hplaced => .pure ⟨?_, ?_⟩
      · rw [List.map_cons, hp.1, hplaced.1]
      · intro q hq
        rcases List.mem_cons.mp hq with rfl | hq
        · exact hp.2
        · exact hplaced.2 q hq

theorem instruction_ensures :
    (instruction d locals pool start codeEnd).Ensures fun p => p.1.Conforms d locals pool := by
  refine .after fun position => .after fun code => ?_
  split
  · exact .failAt
  · rename_i op hop
    refine .bind (operands_ensures op.mnemonic op.operands) fun placed hplaced =>
      .after fun ending => .pure ⟨⟨op, hop, rfl, rfl, rfl, rfl⟩, ?_, ?_⟩
    · simp only
      rw [← hplaced.1, List.length_map, List.length_map]
    · intro o ho
      simp only at ho
      rw [← hplaced.1, List.zip_map', List.mem_map] at ho
      obtain ⟨p, hp, rfl⟩ := ho
      exact hplaced.2 p hp

/-- The instructions that were decoded, whether or not an error stopped them. -/
def decodedOf (instructionOf : α → Instruction) : Except CodeError (List α) → List Instruction
  | .ok found => found.map instructionOf
  | .error e => e.before

/-- The instructions of a stream conform, also those before an error. -/
theorem instructions_conform {stop fuel : Nat} {done : List Placed} {c : Cursor}
    {r : Except CodeError (List Placed)}
    (h : instructions d locals pool start codeEnd stop fuel done c = r)
    (hdone : ∀ i ∈ done.reverse.map (·.1), i.Conforms d locals pool) :
    ∀ i ∈ decodedOf (·.1) r, i.Conforms d locals pool := by
  induction fuel generalizing done c with
  | zero =>
    rw [← h]
    exact hdone
  | succ fuel ih =>
    unfold instructions at h
    split at h
    · rw [← h]
      exact hdone
    · split at h
      · rename_i p c' hp
        refine ih h fun i hi => ?_
        rw [List.reverse_cons, List.map_append, List.mem_append] at hi
        rcases hi with hi | hi
        · exact hdone i hi
        · rw [List.mem_singleton.mp hi]
          exact instruction_ensures hp
      · rw [← h]
        exact hdone

/-- The instructions of a function's code conform, whatever stopped it. -/
theorem code_conform {bounds : Bounds} {c : Cursor} {length : Nat}
    {r : Except CodeError (List Instruction)} (h : code d locals pool bounds c length = r) :
    ∀ i ∈ decodedOf id r, i.Conforms d locals pool := by
  unfold code at h
  dsimp only at h
  split at h
  · rename_i e he
    rw [← h]
    exact instructions_conform he (by simp)
  · rename_i placed hplaced
    have hall : ∀ i ∈ placed.map (·.1), i.Conforms d locals pool :=
      instructions_conform hplaced (by simp)
    split_ifs at h
    · rw [← h, decodedOf, List.map_id]
      exact hall
    · split at h
      · rw [← h]
        exact fun i hi => hall i (List.mem_of_mem_take hi)
      · rw [← h, decodedOf, List.map_id]
        exact hall

/-! ## Functions -/

/-- The instructions of a function conform, with or without its lines. -/
theorem body_ensures {bounds : Bounds} {h : Header} {length : Nat} :
    (body d bounds h pool length).Ensures fun f =>
      ∀ i ∈ f.instructions, ∃ locals pool, i.Conforms d locals pool := by
  refine .after fun c => ?_
  generalize hcode : code d h.locals pool bounds c length = r
  have hdecoded := code_conform hcode
  cases r with
  | error e =>
    have hbefore : ∀ i ∈ e.before, ∃ locals pool, i.Conforms d locals pool :=
      fun i hi => ⟨_, _, hdecoded i hi⟩
    dsimp only
    split
    · exact .after fun _ => .pure hbefore
    · refine .after fun _ => ?_
      split
      · exact .pure hbefore
      · exact .after fun _ => .pure hbefore
  | ok found =>
    have hfound : ∀ i ∈ found, ∃ locals pool, i.Conforms d locals pool := by
      rw [decodedOf, List.map_id] at hdecoded
      exact fun i hi => ⟨_, _, hdecoded i hi⟩
    dsimp only
    split
    · exact .after fun _ => .pure hfound
    · refine .after fun _ => ?_
      split
      · exact .pure hfound
      · refine .after fun lines => .pure fun i hi => ?_
        -- Lines are all that changed of the instructions.
        rw [if_pos (show (none : Option DecodeError).isNone = true from rfl)] at hi
        obtain ⟨j, hj, hji⟩ := Instruction.exists_relined (applyLines_forall₂ found lines) i hi
        obtain ⟨locals, pool, hop, hlen, hrange⟩ := hfound j hj
        rw [hji]
        exact ⟨locals, pool, hop, hlen, hrange⟩

/-- What all functions have that are read, the functions of a payload have, however many were
decoded. -/
theorem functions_ensures {bounds : Bounds} {functionCount : Nat} {P : Function → Prop}
    (h : ∀ index, (function d bounds functionCount index).Ensures P) {n index : Nat} {c : Cursor} :
    ∀ f ∈ (functions d bounds functionCount n index c).1, P f := by
  induction n generalizing index c with
  | zero => simp [functions]
  | succ n ih =>
    unfold functions
    split
    · simp
    · rename_i f c' hf
      have hthis := h index hf
      have hall : ∀ g ∈ f :: (functions d bounds functionCount n (index + 1) c').1, P g :=
        List.forall_mem_cons.mpr ⟨hthis, ih⟩
      split
      · split
        · exact List.forall_mem_singleton.mpr hthis
        · exact hall
      · exact hall

theorem functions_conform {bounds : Bounds} {functionCount n index : Nat} {c : Cursor} :
    ∀ f ∈ (functions d bounds functionCount n index c).1, ∀ i ∈ f.instructions,
      ∃ locals pool, i.Conforms d locals pool :=
  functions_ensures fun _ => .after fun _ => .after fun _ => .after fun _ => body_ensures

/-! ## Constants -/

theorem constant_ensures (functionCount : Nat) :
    (constant d functionCount).Ensures fun c => c.isForeign = false := by
  refine .after fun start => .after fun tag => ?_
  split
  · exact .failAt
  · split
    · exact .pure rfl
    · refine .after fun position => .after fun raw => ?_
      split
      · exact .failAt
      · exact .pure rfl
    iterate 4 exact .after fun _ => .pure rfl
    all_goals
      refine .after fun position => .after fun index => ?_
      split
      · exact .failAt
      · exact .pure rfl

theorem times_ensures {step : Reading α} {P : α → Prop} (h : step.Ensures P) (n : Nat) :
    (times step n).Ensures fun as => ∀ a ∈ as, P a := by
  induction n with
  | zero => exact .pure fun _ h => absurd h List.not_mem_nil
  | succ n ih =>
    exact .bind h fun a ha => .bind ih fun as has => .pure (List.forall_mem_cons.mpr ⟨ha, has⟩)

/-- The pool of a function is the one that was read before its code. -/
theorem body_constants {bounds : Bounds} {h : Header} {length : Nat} :
    (body d bounds h pool length).Ensures fun f => f.constants = pool := by
  refine .after fun c => ?_
  generalize code d h.locals pool bounds c length = r
  cases r <;> dsimp only <;> split
  all_goals first
    | exact .after fun _ => .pure rfl
    | (refine .after fun _ => ?_
       split
       · exact .pure rfl
       · exact .after fun _ => .pure rfl)

theorem functions_constants {bounds : Bounds} {functionCount n index : Nat} {c : Cursor} :
    ∀ f ∈ (functions d bounds functionCount n index c).1,
      ∀ k ∈ f.constants, k.isForeign = false := by
  refine functions_ensures fun _ => .after fun _ =>
    .bind (.after fun count => times_ensures (constant_ensures _) count)
      fun _ hpool => .after fun _ => body_constants.mono ?_
  rintro f rfl
  exact hpool

end Decode

/-- **Decoded instructions** are instructions of the dialect with operands in range. -/
theorem Script.conforms_of_mem {d : Dialect} {payload : List UInt8} {bounds : Bounds} {f : Function}
    (hf : f ∈ (decode d payload bounds).functions) {i : Instruction} (hi : i ∈ f.instructions) :
    ∃ locals pool, i.Conforms d locals pool := by
  unfold decode at hf
  split at hf
  · cases hf
  · exact Decode.functions_conform f hf i hi

/-- **Decoded constants** are of kinds that an encoding provides for. -/
theorem Script.isForeign_of_mem {d : Dialect} {payload : List UInt8} {bounds : Bounds} {f : Function}
    (hf : f ∈ (decode d payload bounds).functions) {c : Constant} (hc : c ∈ f.constants) :
    c.isForeign = false := by
  unfold decode at hf
  split at hf
  · cases hf
  · exact Decode.functions_constants f hf c hc

end Unscript
