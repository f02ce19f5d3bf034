import Unscript.Flow.Dominance

/-!
# Dominance

Results:
* `Graph.greatest_induction`: what holds of the first table and is kept by a pass holds at the end.
* `Graph.mem_meet`: the members common to the sets of all blocks of a list.
* `Graph.dominators_of_preds`: a block that is entered from one other block only has its dominators.
* `Graph.postdominator_mem`: a postdominator is reachable, or the block itself.
-/

namespace Unscript.Graph

variable {i j size : Nat} {reach : BlockSet} {table : Array BlockSet}

theorem entryOf_tableOf {f : Nat → BlockSet} :
    entryOf (tableOf size f) i = if i < size then f i else .empty := by
  unfold entryOf tableOf
  rw [List.getElem?_toArray, List.getElem?_map]
  split
  · rename_i h
    rw [List.getElem?_range h, Option.map_some, Option.getD_some]
  · rename_i h
    rw [List.getElem?_eq_none (by simpa using h), Option.map_none, Option.getD_none]

/-- The members common to the sets of all blocks of a list. -/
theorem mem_meet {all : BlockSet} {ids : List Nat} :
    j ∈ meet table all ids ↔ j ∈ all ∧ ∀ i ∈ ids, j ∈ entryOf table i := by
  unfold meet
  induction ids generalizing all with
  | nil => simp
  | cons i ids ih =>
    rw [List.foldl_cons, ih, BlockSet.mem_inter, List.forall_mem_cons, and_assoc]
    exact Iff.rfl

/-- What holds of the first table and is kept by a pass holds at the end. -/
theorem greatest_induction {step : Array BlockSet → Array BlockSet} {P : Array BlockSet → Prop}
    {fuel : Nat} (h : P table) (hstep : ∀ t, P t → P (step t)) : P (greatest step fuel table) := by
  induction fuel generalizing table with
  | zero => exact h
  | succ fuel ih =>
    unfold greatest
    dsimp only
    split
    · exact h
    · exact ih (hstep table h)

/-- Only itself dominates the entry. -/
theorem dominator_zero {g : Graph} {preds : Nat → List Nat}
    (h : j ∈ entryOf (g.dominators reach preds) 0) : j = 0 := by
  have hzero {f : Nat → BlockSet} (hf : f 0 = .single 0) :
      ∀ j ∈ entryOf (tableOf g.size f) 0, j = 0 := by
    intro j hj
    rw [entryOf_tableOf] at hj
    split at hj
    · exact BlockSet.mem_single.mp (hf ▸ hj)
    · exact absurd hj (BlockSet.not_mem_empty j)
  unfold dominators at h
  refine greatest_induction (P := fun t => ∀ j ∈ entryOf t 0, j = 0) ?_ (fun t _ => ?_) j h
  · exact hzero (if_pos rfl)
  · exact hzero (if_pos rfl)

/-! ## Dominators -/

section Dominators

variable (g : Graph) (reach : BlockSet) (preds : Nat → List Nat)

/-- The dominators before any pass. -/
def dominatorStart : Array BlockSet :=
  tableOf g.size fun i =>
    if i = 0 then BlockSet.single 0 else if i ∈ reach then reach else BlockSet.empty

/-- One pass over the dominators. -/
def dominatorStep (t : Array BlockSet) : Array BlockSet :=
  tableOf g.size fun i =>
    if i = 0 then BlockSet.single 0
    else if i ∈ reach then
      match (preds i).filter (· ∈ reach) with
      | [] => BlockSet.single i
      | ps => (meet t reach ps).insert i
    else BlockSet.empty

theorem dominators_eq : g.dominators reach preds =
    greatest (dominatorStep g reach preds) (g.size * g.size + 1) (dominatorStart g reach) :=
  rfl

end Dominators

section Pass

variable {g : Graph} {preds : Nat → List Nat} {b c : Nat}

/-- A reachable block but the entry is dominated by itself and by what dominates all its reachable
predecessors. -/
theorem mem_dominatorStep (hi : i < g.size) (hzero : i ≠ 0) (hreach : i ∈ reach) :
    j ∈ entryOf (dominatorStep g reach preds table) i ↔ j = i ∨
      (∃ p ∈ preds i, p ∈ reach) ∧ j ∈ reach ∧ ∀ p ∈ preds i, p ∈ reach → j ∈ entryOf table p := by
  have hfilter (p : Nat) : p ∈ (preds i).filter (· ∈ reach) ↔ p ∈ preds i ∧ p ∈ reach := by
    rw [List.mem_filter, decide_eq_true_eq]
  unfold dominatorStep
  rw [entryOf_tableOf, if_pos hi, if_neg hzero, if_pos hreach]
  split
  · rename_i hnone
    rw [BlockSet.mem_single]
    refine ⟨.inl, fun h => h.resolve_right ?_⟩
    rintro ⟨⟨p, hp⟩, -⟩
    have := (hfilter p).mpr hp
    rw [hnone] at this
    cases this
  · rename_i ps hsome
    obtain ⟨p, hp⟩ := List.exists_mem_of_ne_nil _ hsome
    rw [BlockSet.mem_insert, mem_meet, or_comm]
    refine or_congr_right ⟨fun h => ⟨⟨p, (hfilter p).mp hp⟩, h.1, fun q hq hr => ?_⟩, fun h => ?_⟩
    · exact h.2 q ((hfilter q).mpr ⟨hq, hr⟩)
    · exact ⟨h.2.1, fun q hq => h.2.2 q ((hfilter q).mp hq).1 ((hfilter q).mp hq).2⟩

/-- A pass does not look at the table for the entry and for unreachable blocks. -/
theorem entryOf_dominatorStep (h : ¬ (i < g.size ∧ i ≠ 0 ∧ i ∈ reach)) :
    entryOf (dominatorStep g reach preds table) i = entryOf (dominatorStart g reach) i := by
  unfold dominatorStep dominatorStart
  rw [entryOf_tableOf, entryOf_tableOf]
  by_cases hi : i < g.size
  · rw [if_pos hi, if_pos hi]
    by_cases hzero : i = 0
    · rw [if_pos hzero, if_pos hzero]
    · have hout : i ∉ reach := fun hreach => h ⟨hi, hzero, hreach⟩
      rw [if_neg hzero, if_neg hzero, if_neg hout, if_neg hout]
  · rw [if_neg hi, if_neg hi]

/-- A pass keeps the order of tables. -/
theorem dominatorStep_mono {s t : Array BlockSet} (h : ∀ i, ∀ j ∈ entryOf s i, j ∈ entryOf t i) :
    ∀ i, ∀ j ∈ entryOf (dominatorStep g reach preds s) i,
      j ∈ entryOf (dominatorStep g reach preds t) i := by
  intro i j hj
  by_cases hstep : i < g.size ∧ i ≠ 0 ∧ i ∈ reach
  · obtain ⟨hi, hzero, hreach⟩ := hstep
    rw [mem_dominatorStep hi hzero hreach] at hj ⊢
    exact hj.imp_right fun hj => ⟨hj.1, hj.2.1, fun p hp hr => h p j (hj.2.2 p hp hr)⟩
  · rw [entryOf_dominatorStep hstep] at hj ⊢
    exact hj

/-- The first pass only takes members away. -/
theorem dominatorStep_start : ∀ i, ∀ j ∈ entryOf (dominatorStep g reach preds
    (dominatorStart g reach)) i, j ∈ entryOf (dominatorStart g reach) i := by
  intro i j hj
  by_cases hstep : i < g.size ∧ i ≠ 0 ∧ i ∈ reach
  · obtain ⟨hi, hzero, hreach⟩ := hstep
    unfold dominatorStart
    rw [entryOf_tableOf, if_pos hi, if_neg hzero, if_pos hreach]
    rcases (mem_dominatorStep hi hzero hreach).mp hj with rfl | hj
    · exact hreach
    · exact hj.2.1
  · rwa [entryOf_dominatorStep hstep] at hj

/-- A block that is entered from one other block only has the dominators of that block. -/
theorem dominators_of_preds (hb : b < g.size) (hzero : b ≠ 0) (hreach : b ∈ reach)
    (hc : c ∈ preds b) (hcreach : c ∈ reach)
    (hpreds : ∀ p ∈ preds b, p ∈ reach → p = c ∨ p = b) (hj : j ∈ reach)
    (hdom : j ∈ entryOf (g.dominators reach preds) c) :
    j ∈ entryOf (g.dominators reach preds) b := by
  rw [dominators_eq] at hdom ⊢
  -- What dominates the other block is never taken from this one before it is taken from the other.
  refine (greatest_induction (P := fun t =>
    (∀ i, ∀ j ∈ entryOf (dominatorStep g reach preds t) i, j ∈ entryOf t i) ∧
      ∀ j ∈ reach, j ∈ entryOf t c → j ∈ entryOf t b) ?_ ?_).2 j hj hdom
  · refine ⟨dominatorStep_start, fun j hj _ => ?_⟩
    unfold dominatorStart
    rwa [entryOf_tableOf, if_pos hb, if_neg hzero, if_pos hreach]
  · rintro t ⟨hle, hkept⟩
    refine ⟨dominatorStep_mono hle, fun j hj hjc => ?_⟩
    have hjt := hle c j hjc
    rw [mem_dominatorStep hb hzero hreach]
    refine .inr ⟨⟨c, hc, hcreach⟩, hj, fun p hp hr => ?_⟩
    rcases hpreds p hp hr with rfl | rfl
    · exact hjt
    · exact hkept j hj hjt

end Pass

/-! ## Postdominators -/

/-- A table whose sets hold only reachable blocks and the block itself. -/
def Within (reach : BlockSet) (table : Array BlockSet) : Prop :=
  ∀ i, ∀ j ∈ entryOf table i, j ∈ reach ∨ j = i

theorem within_tableOf {f : Nat → BlockSet} (h : ∀ i, ∀ j ∈ f i, j ∈ reach ∨ j = i) :
    Within reach (tableOf size f) := by
  intro i j hj
  rw [entryOf_tableOf] at hj
  split at hj
  · exact h i j hj
  · exact absurd hj (BlockSet.not_mem_empty j)

theorem within_single (h : j ∈ BlockSet.single i) : j ∈ reach ∨ j = i :=
  .inr (BlockSet.mem_single.mp h)

section Lowered

variable (g : Graph) (reach : BlockSet) (next : Nat → List Nat)

/-- Whether a block has only itself as a postdominator. -/
def fixedAt (i : Nat) : Bool :=
  i = g.exit || i ∉ reach || (next i).isEmpty

/-- The sets before they are lowered. -/
def fullTable : Array BlockSet :=
  tableOf g.size fun i => if fixedAt g reach next i then BlockSet.single i else reach

/-- One pass over the sets. -/
def lowerStep (t : Array BlockSet) : Array BlockSet :=
  tableOf g.size fun i =>
    if fixedAt g reach next i then BlockSet.single i else (meet t reach (next i)).insert i

/-- The sets after they were lowered. -/
def lowered : Array BlockSet :=
  greatest (lowerStep g reach next) (g.size * g.size + 1) (fullTable g reach next)

/-- Postdominators are the lowered sets, but for those that were never lowered. -/
theorem postdominators_eq : g.postdominators reach next = tableOf g.size fun i =>
    if entryOf (lowered g reach next) i = reach ∧ i ≠ g.exit then BlockSet.single i
    else entryOf (lowered g reach next) i :=
  rfl

end Lowered

/-- The lowered sets hold only reachable blocks and the block itself. -/
theorem within_lowered {g : Graph} {next : Nat → List Nat} :
    Within reach (lowered g reach next) := by
  refine greatest_induction (P := Within reach) ?_ fun t _ => ?_
  · refine within_tableOf fun i j hj => ?_
    split at hj
    · exact within_single hj
    · exact .inl hj
  · refine within_tableOf fun i j hj => ?_
    split at hj
    · exact within_single hj
    · rcases BlockSet.mem_insert.mp hj with hj | hj
      · exact .inl (mem_meet.mp hj).1
      · exact .inr hj

/-- A postdominator is reachable, or the block itself. -/
theorem postdominator_mem {g : Graph} {next : Nat → List Nat}
    (h : j ∈ entryOf (g.postdominators reach next) i) : j ∈ reach ∨ j = i := by
  rw [postdominators_eq] at h
  refine within_tableOf (fun i j hj => ?_) i j h
  split at hj
  · exact within_single hj
  · exact within_lowered i j hj

end Unscript.Graph
