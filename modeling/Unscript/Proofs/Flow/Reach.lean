import Unscript.Flow.Dominance
import Mathlib.Algebra.BigOperators.Group.List.Basic
import Mathlib.Algebra.Group.Nat.Defs
import Mathlib.Algebra.Order.BigOperators.Group.List
import Mathlib.Algebra.Order.Ring.Nat

/-!
# Closures

The closure of a relation is found by a worklist with fuel. The fuel is enough when it covers the
worklist and what the unseen blocks may still add to it, which the count of edges bounds.

* `Graph.demand`: what the blocks not seen yet may still add to the worklist.

Results:
* `Graph.closure_induction`: what the relation keeps wherever a closure follows it.
* `Graph.closure_subset`: a closure stays inside every set that the relation does not leave.
* `Graph.closure_complete`: with enough fuel a closure holds all blocks that it starts from and is
  closed under the relation.
* `Graph.closure_add`: more fuel than enough changes nothing.
-/

namespace Unscript

namespace BlockSet

theorem mem_toList {s : BlockSet} {i : Nat} : i ∈ s.toList ↔ i ∈ s := by
  unfold toList
  rw [List.mem_filter, List.mem_range]
  constructor
  · exact fun h => h.2
  · intro h
    have hbit := Nat.ge_two_pow_of_testBit h
    have hne : s.bits ≠ 0 := by
      have := Nat.two_pow_pos i
      omega
    exact ⟨Nat.lt_succ_of_le ((Nat.le_log2 hne).mpr hbit), h⟩

theorem subset_insert (s : BlockSet) (i : Nat) : ∀ j ∈ s, j ∈ s.insert i :=
  fun _ hj => mem_insert.mpr (.inl hj)

theorem mem_insert_self (s : BlockSet) (i : Nat) : i ∈ s.insert i :=
  mem_insert.mpr (.inr rfl)

theorem insert_of_mem {s : BlockSet} {i : Nat} (h : i ∈ s) : s.insert i = s := by
  ext j
  rw [mem_insert]
  exact or_iff_left_of_imp fun hj => hj ▸ h

theorem mem_foldl_insert {xs : List Nat} {s : BlockSet} {i : Nat} :
    i ∈ xs.foldl insert s ↔ i ∈ s ∨ i ∈ xs := by
  induction xs generalizing s with
  | nil => simp
  | cons x xs ih => rw [List.foldl_cons, ih, mem_insert, List.mem_cons, or_assoc]

theorem mem_ofList {xs : List Nat} {i : Nat} : i ∈ ofList xs ↔ i ∈ xs := by
  unfold ofList
  rw [mem_foldl_insert]
  simp

theorem mem_foldl_union {α : Type} {g : α → BlockSet} {xs : List α} {s : BlockSet} {i : Nat} :
    i ∈ xs.foldl (fun s x => s.union (g x)) s ↔ i ∈ s ∨ ∃ x ∈ xs, i ∈ g x := by
  induction xs generalizing s with
  | nil => simp
  | cons x xs ih => rw [List.foldl_cons, ih, mem_union, List.exists_mem_cons_iff, or_assoc]

end BlockSet

namespace Graph

variable {next : Nat → List Nat} {fuel size : Nat} {seen : BlockSet} {work : List Nat}

/-! ## Inside -/

/-- What was seen stays seen. -/
theorem mem_closure_of_seen {i : Nat} (hi : i ∈ seen) : i ∈ closure next fuel seen work := by
  induction fuel generalizing seen work with
  | zero => exact hi
  | succ fuel ih =>
    cases work with
    | nil => exact hi
    | cons j work =>
      unfold closure
      split
      · exact ih hi
      · exact ih (BlockSet.subset_insert _ _ _ hi)

/-- What holds of the blocks that a closure starts from, and is kept by the relation wherever the
closure follows it, holds of all its members. -/
theorem closure_induction {P : Nat → Prop} {first all : BlockSet} (hfirst : ∀ i ∈ first, i ∈ seen)
    (hall : ∀ i ∈ closure next fuel seen work, i ∈ all) (hseen : ∀ i ∈ seen, P i)
    (hwork : ∀ i ∈ work, P i) (hnext : ∀ i ∈ all, i ∉ first → P i → ∀ j ∈ next i, P j) :
    ∀ i ∈ closure next fuel seen work, P i := by
  induction fuel generalizing seen work with
  | zero => exact hseen
  | succ fuel ih =>
    cases work with
    | nil => exact hseen
    | cons i work =>
      obtain ⟨hi, hwork⟩ := List.forall_mem_cons.mp hwork
      unfold closure at hall ⊢
      split
      · rename_i hold
        rw [if_pos hold] at hall
        exact ih hfirst hall hseen hwork
      · rename_i hnew
        rw [if_neg hnew] at hall
        refine ih ?_ hall ?_ ?_
        · exact fun j hj => BlockSet.subset_insert _ _ j (hfirst j hj)
        · intro j hj
          rcases BlockSet.mem_insert.mp hj with hj | rfl
          · exact hseen j hj
          · exact hi
        · intro j hj
          rcases List.mem_append.mp hj with hj | hj
          · have hmem := hall i (mem_closure_of_seen (BlockSet.mem_insert_self _ i))
            exact hnext i hmem (fun h => hnew (hfirst i h)) hi j hj
          · exact hwork j hj

/-- A closure stays inside every set that the relation does not leave. -/
theorem closure_subset {P : Nat → Prop} (hseen : ∀ i ∈ seen, P i) (hwork : ∀ i ∈ work, P i)
    (hnext : ∀ i, P i → ∀ j ∈ next i, P j) : ∀ i ∈ closure next fuel seen work, P i :=
  closure_induction (fun _ hi => hi) (fun _ hi => hi) hseen hwork fun i _ _ => hnext i

/-! ## Enough fuel -/

/-- What the blocks not seen yet may still add to the worklist. -/
def demand (next : Nat → List Nat) (size : Nat) (seen : BlockSet) : Nat :=
  (((List.range size).filter (· ∉ seen)).map fun i => (next i).length).sum

/-- A block that is expanded adds no more than it takes from the demand. -/
theorem demand_insert (hout : ∀ i, size ≤ i → next i = []) {i : Nat} (hi : i ∉ seen) :
    (next i).length + demand next size (seen.insert i) ≤ demand next size seen := by
  rcases Nat.lt_or_ge i size with hlt | hge
  · have hperm : ((List.range size).filter (· ∉ seen)).Perm
        (i :: (List.range size).filter (· ∉ seen.insert i)) := by
      rw [List.perm_ext_iff_of_nodup (List.nodup_range.filter _)]
      · intro j
        simp only [List.mem_filter, List.mem_range, decide_eq_true_eq, List.mem_cons,
          BlockSet.mem_insert, not_or]
        constructor
        · intro h
          by_cases hji : j = i
          · exact .inl hji
          · exact .inr ⟨h.1, h.2, hji⟩
        · rintro (rfl | h)
          · exact ⟨hlt, hi⟩
          · exact ⟨h.1, h.2.1⟩
      · refine List.nodup_cons.mpr ⟨?_, List.nodup_range.filter _⟩
        simp [BlockSet.mem_insert]
    unfold demand
    rw [(hperm.map fun i => (next i).length).sum_eq, List.map_cons, List.sum_cons]
  · rw [hout i hge]
    unfold demand
    rw [List.length_nil, Nat.zero_add]
    refine ((List.Sublist.map _ ?_).sum_le_sum fun _ _ => Nat.zero_le _)
    refine List.monotone_filter_right _ fun j => ?_
    simp only [decide_eq_true_eq, BlockSet.mem_insert, not_or]
    exact fun h => h.1

/-- With enough fuel a closure holds what it has seen and what it starts from, and is closed under
the relation where it was not seen before. -/
theorem closure_complete (hout : ∀ i, size ≤ i → next i = [])
    (hfuel : work.length + demand next size seen ≤ fuel) :
    (∀ i ∈ seen, i ∈ closure next fuel seen work) ∧
      (∀ i ∈ work, i ∈ closure next fuel seen work) ∧
      ∀ i ∈ closure next fuel seen work, i ∉ seen → ∀ j ∈ next i,
        j ∈ closure next fuel seen work := by
  induction fuel generalizing seen work with
  | zero =>
    have hnil : work = [] := List.length_eq_zero_iff.mp (by omega)
    subst hnil
    exact ⟨fun _ h => h, by simp, fun i hi hnot => absurd hi hnot⟩
  | succ fuel ih =>
    cases work with
    | nil => exact ⟨fun _ h => h, by simp, fun i hi hnot => absurd hi hnot⟩
    | cons i work =>
      rw [List.length_cons] at hfuel
      unfold closure
      split
      · rename_i hi
        have hrest : work.length + demand next size seen ≤ fuel := by
          omega
        obtain ⟨hseen, hwork, hnext⟩ := ih hrest
        exact ⟨hseen, List.forall_mem_cons.mpr ⟨hseen i hi, hwork⟩, hnext⟩
      · rename_i hi
        have hdemand := demand_insert hout hi
        have hrest : (next i ++ work).length + demand next size (seen.insert i) ≤ fuel := by
          rw [List.length_append]
          omega
        obtain ⟨hseen, hwork, hnext⟩ := ih hrest
        have hself := hseen i (BlockSet.mem_insert_self _ i)
        refine ⟨fun j hj => hseen j (BlockSet.subset_insert _ _ j hj), ?_, ?_⟩
        · exact List.forall_mem_cons.mpr
            ⟨hself, fun j hj => hwork j (List.mem_append.mpr (.inr hj))⟩
        · intro j hj hnot k hk
          by_cases hji : j = i
          · subst hji
            exact hwork k (List.mem_append.mpr (.inl hk))
          · refine hnext j hj (fun h => ?_) k hk
            rcases BlockSet.mem_insert.mp h with h | h
            · exact hnot h
            · exact hji h

/-- More fuel than enough changes nothing: the worklist is empty before. -/
theorem closure_add (hout : ∀ i, size ≤ i → next i = [])
    (hfuel : work.length + demand next size seen ≤ fuel) (k : Nat) :
    closure next (fuel + k) seen work = closure next fuel seen work := by
  induction fuel generalizing seen work with
  | zero =>
    have hnil : work = [] := List.length_eq_zero_iff.mp (by omega)
    subst hnil
    cases k <;> rfl
  | succ fuel ih =>
    rw [Nat.add_right_comm]
    cases work with
    | nil => rfl
    | cons i work =>
      rw [List.length_cons] at hfuel
      unfold closure
      split
      · exact ih (by omega)
      · rename_i hi
        have hdemand := demand_insert hout hi
        refine ih ?_
        rw [List.length_append]
        omega

/-- A relation with at most two steps from each block demands no more than twice their count. -/
theorem demand_le (htwo : ∀ i, (next i).length ≤ 2) : demand next size seen ≤ 2 * size := by
  have hle : ((List.range size).filter (· ∉ seen)).length ≤ size := by
    have := List.length_filter_le (fun i => decide (i ∉ seen)) (List.range size)
    rwa [List.length_range] at this
  have hsum := List.sum_le_card_nsmul
    (((List.range size).filter (· ∉ seen)).map fun i => (next i).length) 2 (by
      intro x hx
      obtain ⟨i, -, rfl⟩ := List.mem_map.mp hx
      exact htwo i)
  rw [List.length_map, Nat.nsmul_eq_mul] at hsum
  unfold demand
  omega

end Graph

end Unscript
