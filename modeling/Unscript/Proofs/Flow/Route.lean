/-!
# Paths along a relation

* `Route`: a path from one block to another, with all the blocks on it.

Results:
* `Route.forall_mem`: what the relation keeps holds along a path.
* `Route.split`, `Route.append`: a path is cut at one of its blocks and put together again.
-/

namespace Unscript

/-- A path along a relation from one block to another, with all the blocks on it. -/
inductive Route (R : Nat → Nat → Prop) : Nat → Nat → List Nat → Prop
  | stay (a : Nat) : Route R a a [a]
  | step {a b c : Nat} {r : List Nat} (h : R a b) (rest : Route R b c r) : Route R a c (a :: r)

namespace Route

variable {R : Nat → Nat → Prop} {a b c : Nat} {r front back : List Nat}

theorem exists_cons (h : Route R a b r) : ∃ back, r = a :: back := by
  cases h with
  | stay => exact ⟨[], rfl⟩
  | step => exact ⟨_, rfl⟩

theorem mem_first (h : Route R a b r) : a ∈ r := by
  obtain ⟨back, rfl⟩ := h.exists_cons
  exact List.mem_cons_self

theorem mem_last (h : Route R a b r) : b ∈ r := by
  induction h with
  | stay a => exact List.mem_singleton_self a
  | step _ _ ih => exact List.mem_cons_of_mem _ ih

/-- What the relation keeps holds along a path. -/
theorem forall_mem {P : Nat → Prop} (hP : ∀ a b, P a → R a b → P b) (h : Route R a b r) (ha : P a) :
    ∀ x ∈ r, P x := by
  induction h with
  | stay a => exact fun x hx => List.mem_singleton.mp hx ▸ ha
  | step hab _ ih => exact List.forall_mem_cons.mpr ⟨ha, ih (hP _ _ ha hab)⟩

/-- A path goes on by one more step. -/
theorem concat (h : Route R a b r) (hbc : R b c) : Route R a c (r ++ [c]) := by
  induction h with
  | stay a => exact .step hbc (.stay c)
  | step hab _ ih => exact .step hab (ih hbc)

/-- A path ends with a step, unless it stays where it starts. -/
theorem last_step (h : Route R a c r) : a = c ∨ ∃ b r', Route R a b r' ∧ R b c := by
  induction h with
  | stay => exact .inl rfl
  | @step a b c r hab _ ih =>
    obtain rfl | ⟨x, r', hr', hxc⟩ := ih
    · exact .inr ⟨a, [a], .stay a, hab⟩
    · exact .inr ⟨x, a :: r', .step hab hr', hxc⟩

/-- A path with more blocks than its first one starts with a step. -/
theorem of_cons (h : Route R a b (c :: r)) (hr : r ≠ []) : c = a ∧ ∃ x, R a x ∧ Route R x b r := by
  cases h with
  | stay => exact absurd rfl hr
  | step hab hrest => exact ⟨rfl, _, hab, hrest⟩

/-- A path is cut at one of its blocks. -/
theorem split (h : Route R a b (front ++ c :: back)) :
    Route R a c (front ++ [c]) ∧ Route R c b (c :: back) := by
  induction front generalizing a with
  | nil =>
    obtain ⟨back', hback⟩ := h.exists_cons
    obtain ⟨rfl, -⟩ := List.cons.inj hback
    exact ⟨.stay c, h⟩
  | cons x front ih =>
    obtain ⟨rfl, y, hab, hrest⟩ := h.of_cons (List.append_ne_nil_of_right_ne_nil _ (by simp))
    obtain ⟨hfront, hback⟩ := ih hrest
    exact ⟨.step hab hfront, hback⟩

/-- Two paths are put together at the block where the first ends and the second starts. -/
theorem append (h : Route R a c (front ++ [c])) (hback : Route R c b (c :: back)) :
    Route R a b (front ++ c :: back) := by
  induction front generalizing a with
  | nil =>
    obtain ⟨back', hfront⟩ := h.exists_cons
    obtain ⟨rfl, -⟩ := List.cons.inj hfront
    exact hback
  | cons x front ih =>
    obtain ⟨rfl, y, hab, hrest⟩ := h.of_cons (List.append_ne_nil_of_right_ne_nil _ (by simp))
    exact .step hab (ih hrest)

end Route

end Unscript
