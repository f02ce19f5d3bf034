import Unscript.Proofs.Lifting.Steady

/-!
# Where lifted code is from

Statements and values are products of instructions, made of the products of instructions before
them, or stand for what is left on the stack. What the products keep to holds of a lifted block.

* `Product.Holds`, `Lifted.Holds`: statements and expressions have properties.
* `Stmt.declares`: whether a statement is also a declaration.

Results:
* `Lifted.holds_of_ofInstructions`: what all products have, a lifted block has.
* `Lifted.declares_eq_false`: no statement of a lifted block is a declaration.
-/

namespace Unscript

variable {d : Dialect} {block : Nat} {is : List Instruction} {P : Stmt → Prop} {Q : Expr → Prop}

/-- The statements and expressions of a product have properties. -/
def Product.Holds (P : Stmt → Prop) (Q : Expr → Prop) : Product → Prop
  | .nothing => True
  | .push e | .value e => Q e
  | .act stmt => P stmt

/-- The statements and the value of a lifted block have properties. -/
structure Lifted.Holds (P : Stmt → Prop) (Q : Expr → Prop) (l : Lifted) : Prop where
  statements : ∀ stmt ∈ l.statements, P stmt
  value : ∀ e, l.value = some e → Q e

namespace Symbolic

/-- The stack, the statements and the value of a run have properties. -/
structure Holds (P : Stmt → Prop) (Q : Expr → Prop) (s : Symbolic) : Prop where
  stack : ∀ e ∈ s.stack, Q e
  statements : ∀ stmt ∈ s.statements, P stmt
  value : ∀ e, s.value = some e → Q e

variable {s s' : Symbolic}

theorem Holds.receive (h : s.Holds P Q) {product : Product} (hp : product.Holds P Q) :
    (s.receive product).Holds P Q := by
  cases product with
  | nothing => exact h
  | push e => exact ⟨List.forall_mem_cons.mpr ⟨hp, h.stack⟩, h.statements, h.value⟩
  | act stmt =>
    refine ⟨h.stack, ?_, h.value⟩
    exact List.forall_mem_append.mpr ⟨h.statements, List.forall_mem_singleton.mpr hp⟩
  | value e =>
    refine ⟨h.stack, h.statements, ?_⟩
    rintro _ ⟨⟩
    exact hp

/-- One instruction: it takes values that have the property from the top. -/
theorem Holds.step {i : Instruction} {a : Action} (h : s.Holds P Q) (hi : i.Balanced d a)
    (hproduct : ∀ args, (∀ e ∈ args, Q e) → args.length = a.effect.taken i.operands →
      (a.product i args).Holds P Q)
    (hs : s.step d block i = .ok s') : s'.Holds P Q := by
  obtain ⟨args, rest, hstack, hargs, rfl⟩ := exists_of_step hi hs
  have hall := h.stack
  rw [hstack] at hall
  obtain ⟨htaken, hrest⟩ := List.forall_mem_append.mp hall
  have hkept : ({ s with stack := rest } : Symbolic).Holds P Q := ⟨hrest, h.statements, h.value⟩
  exact hkept.receive (hproduct args (fun e he => htaken e (List.mem_reverse.mpr he)) hargs)

/-- A run, by induction on its instructions. -/
theorem Holds.run (h : s.Holds P Q) (hbalanced : ∀ i ∈ is, ∃ a, i.Balanced d a)
    (hproduct : ∀ i ∈ is, ∀ a, i.Balanced d a → ∀ args, (∀ e ∈ args, Q e) →
      args.length = a.effect.taken i.operands → (a.product i args).Holds P Q)
    (hs : is.foldlM (Symbolic.step d block) s = .ok s') : s'.Holds P Q := by
  induction is generalizing s with
  | nil =>
    cases hs
    exact h
  | cons i is ih =>
    obtain ⟨hfirst, hbalanced⟩ := List.forall_mem_cons.mp hbalanced
    obtain ⟨hmade, hproduct⟩ := List.forall_mem_cons.mp hproduct
    obtain ⟨a, ha⟩ := hfirst
    rw [List.foldlM_cons] at hs
    obtain ⟨s₁, hs₁, hs⟩ := Outcome.bind_eq_ok.mp hs
    exact ih (h.step ha (hmade a ha) hs₁) hbalanced hproduct hs

end Symbolic

namespace Lifted

/-- **What all products have, a lifted block has.** Values left on the stack become statements. -/
theorem holds_of_ofInstructions {l : Lifted} (hbalanced : ∀ i ∈ is, ∃ a, i.Balanced d a)
    (hproduct : ∀ i ∈ is, ∀ a, i.Balanced d a → ∀ args, (∀ e ∈ args, Q e) →
      args.length = a.effect.taken i.operands → (a.product i args).Holds P Q)
    (hresidue : ∀ e offset, Q e → P (.expr e offset true))
    (h : ofInstructions d block is = .ok l) : l.Holds P Q := by
  unfold ofInstructions at h
  cases hrun : is.foldlM (Symbolic.step d block) {} with
  | error e =>
    rw [hrun] at h
    cases h
  | ok s =>
    rw [hrun] at h
    cases h
    have hstart : Symbolic.Holds P Q {} := ⟨by simp, by simp, by simp⟩
    have hs := hstart.run hbalanced hproduct hrun
    refine ⟨List.forall_mem_append.mpr ⟨hs.statements, fun stmt hstmt => ?_⟩, hs.value⟩
    obtain ⟨e, he, rfl⟩ := List.mem_map.mp hstmt
    exact hresidue e _ (hs.stack e (List.mem_reverse.mp he))

end Lifted

/-! ## Declarations -/

/-- Whether a statement is also the declaration of its target. -/
def Stmt.declares : Stmt → Bool
  | .assign _ _ _ declares => declares
  | _ => false

/-- No product is a declaration. -/
theorem Action.product_declares (a : Action) (i : Instruction) (args : List Expr) :
    (a.product i args).Holds (fun stmt => stmt.declares = false) fun _ => True := by
  unfold product
  split <;> first | rfl | trivial

/-- **No statement of a lifted block is a declaration.** -/
theorem Lifted.declares_eq_false {l : Lifted} (hbalanced : ∀ i ∈ is, ∃ a, i.Balanced d a)
    (h : ofInstructions d block is = .ok l) : ∀ stmt ∈ l.statements, stmt.declares = false :=
  (holds_of_ofInstructions hbalanced (fun i _ a _ args _ _ => a.product_declares i args)
    (fun _ _ _ => rfl) h).statements

end Unscript
