import Unscript.Proofs.Flow.Lowering

/-!
# Postdominance

The sets of postdominators are lowered until nothing changes. Then a block postdominates another
exactly when no path from there to a block where paths stop evades it.

* `Graph.Stops`: the blocks where paths stop.
* `Graph.Evades`: a path that stops without passing a block.

Results:
* `Graph.mem_lowered_iff`: a block is left in a set when no path evades it.
* `Graph.eq_of_nearest`: the nearest postdominator of a block outside a set of blocks that is entered
  at one of them only is that one, or lies outside as well.
-/

namespace Unscript.Graph

variable {i j m h : Nat}

/-! ## Paths -/

section Paths

variable (g : Graph) (reach : BlockSet) (next : Nat → List Nat)

/-- Whether paths stop at a block. -/
def Stops (i : Nat) : Prop :=
  i = g.exit ∨ i ∉ reach ∨ next i = []

instance (i : Nat) : Decidable (g.Stops reach next i) :=
  inferInstanceAs (Decidable (_ ∨ _ ∨ _))

/-- Some path from a block stops. -/
inductive Halts : Nat → Prop
  | stop {i : Nat} (hstop : g.Stops reach next i) : Halts i
  | step {i j : Nat} (hgoes : ¬ g.Stops reach next i) (hj : j ∈ next i) (hrest : Halts j) : Halts i

/-- Some path from a block stops without passing another. -/
inductive Evades (m : Nat) : Nat → Prop
  | stop {i : Nat} (hne : i ≠ m) (hstop : g.Stops reach next i) : Evades m i
  | step {i j : Nat} (hne : i ≠ m) (hgoes : ¬ g.Stops reach next i) (hj : j ∈ next i)
    (hrest : Evades m j) : Evades m i

end Paths

variable {g : Graph} {reach : BlockSet} {next : Nat → List Nat}

theorem Evades.ne (he : g.Evades reach next m i) : i ≠ m := by
  cases he with
  | stop hne => exact hne
  | step hne => exact hne

theorem Evades.halts (he : g.Evades reach next m i) : g.Halts reach next i := by
  induction he with
  | stop _ hstop => exact .stop hstop
  | step _ hgoes hj _ ih => exact .step hgoes hj ih

/-! ## The lowered sets -/

theorem fixedAt_iff : fixedAt g reach next i = true ↔ g.Stops reach next i := by
  simp [fixedAt, Stops, or_assoc]

theorem mem_of_not_stops (h : ¬ g.Stops reach next i) : i ∈ reach := by
  by_contra hnot
  exact h (.inr (.inl hnot))

theorem mem_lowerStep {t : Array BlockSet} (hi : i < g.size) :
    m ∈ entryOf (lowerStep g reach next t) i ↔
      m = i ∨ ¬ g.Stops reach next i ∧ m ∈ reach ∧ ∀ j ∈ next i, m ∈ entryOf t j := by
  unfold lowerStep
  rw [entryOf_tableOf, if_pos hi]
  by_cases hstop : g.Stops reach next i
  · rw [if_pos (fixedAt_iff.mpr hstop), BlockSet.mem_single]
    exact ⟨.inl, fun h => h.resolve_right fun h => h.1 hstop⟩
  · rw [if_neg fun h => hstop (fixedAt_iff.mp h), BlockSet.mem_insert, mem_meet, or_comm]
    exact or_congr_right ⟨fun h => ⟨hstop, h⟩, fun h => h.2⟩

theorem mem_fullTable (hi : i < g.size) : m ∈ entryOf (fullTable g reach next) i ↔
    m = i ∨ ¬ g.Stops reach next i ∧ m ∈ reach := by
  unfold fullTable
  rw [entryOf_tableOf, if_pos hi]
  by_cases hstop : g.Stops reach next i
  · rw [if_pos (fixedAt_iff.mpr hstop), BlockSet.mem_single]
    exact ⟨.inl, fun h => h.resolve_right fun h => h.1 hstop⟩
  · rw [if_neg fun h => hstop (fixedAt_iff.mp h)]
    constructor
    · exact fun h => .inr ⟨hstop, h⟩
    · rintro (rfl | h)
      · exact mem_of_not_stops hstop
      · exact h.2

theorem not_mem_of_size_le {f : Nat → BlockSet} (hi : g.size ≤ i) :
    m ∉ entryOf (tableOf g.size f) i := by
  rw [entryOf_tableOf, if_neg (Nat.not_lt.mpr hi)]
  exact BlockSet.not_mem_empty m

/-- A pass keeps the order of tables. -/
theorem lowerStep_mono {s t : Array BlockSet} (h : Below s t) :
    Below (lowerStep g reach next s) (lowerStep g reach next t) := by
  intro i j hj
  rcases Nat.lt_or_ge i g.size with hi | hi
  · rw [mem_lowerStep hi] at hj ⊢
    rcases hj with hj | ⟨hgoes, hreach, hj⟩
    · exact .inl hj
    · exact .inr ⟨hgoes, hreach, fun k hk => h k j (hj k hk)⟩
  · exact absurd hj (not_mem_of_size_le hi)

/-- The first pass only takes members away. -/
theorem lowerStep_fullTable :
    Below (lowerStep g reach next (fullTable g reach next)) (fullTable g reach next) := by
  intro i j hj
  rcases Nat.lt_or_ge i g.size with hi | hi
  · rw [mem_lowerStep hi] at hj
    rw [mem_fullTable hi]
    rcases hj with hj | ⟨hgoes, hreach, -⟩
    · exact .inl hj
    · exact .inr ⟨hgoes, hreach⟩
  · exact absurd hj (not_mem_of_size_le hi)

theorem lowering_lowerStep (hbound : ∀ i ∈ reach, i < g.size) :
    Lowering g.size (lowerStep g reach next) (fullTable g reach next) where
  size_start := by simp [fullTable, tableOf]
  size_step _ := by simp [lowerStep, tableOf]
  mono := lowerStep_mono
  first := lowerStep_fullTable
  bound i hi j hj := by
    rcases (mem_fullTable hi).mp hj with rfl | ⟨-, hj⟩
    · exact hi
    · exact hbound j hj

/-- Nothing changes the lowered sets. -/
theorem lowerStep_lowered (hbound : ∀ i ∈ reach, i < g.size) :
    lowerStep g reach next (lowered g reach next) = lowered g reach next :=
  (lowering_lowerStep hbound).fixed

/-! ## Paths and sets -/

/-- No path evades a block that is left in a set. -/
theorem not_evades_of_mem (hbound : ∀ i ∈ reach, i < g.size)
    (hnext : ∀ i, ∀ j ∈ next i, j < g.size) (hi : i < g.size)
    (hm : m ∈ entryOf (lowered g reach next) i) : ¬ g.Evades reach next m i := by
  intro he
  induction he with
  | stop hne hstop =>
    rw [← lowerStep_lowered hbound, mem_lowerStep hi] at hm
    rcases hm with rfl | ⟨hgoes, -⟩
    · exact hne rfl
    · exact hgoes hstop
  | step hne hgoes hj hrest ih =>
    rw [← lowerStep_lowered hbound, mem_lowerStep hi] at hm
    rcases hm with rfl | ⟨-, -, hm⟩
    · exact hne rfl
    · exact ih (hnext _ _ hj) (hm _ hj)

/-- A block that no path evades is left in a set. -/
theorem mem_of_not_evades (hnext : ∀ i, ∀ j ∈ next i, j < g.size) (hi : i < g.size)
    (hm : m ∈ reach) (he : ¬ g.Evades reach next m i) : m ∈ entryOf (lowered g reach next) i := by
  refine greatest_induction (P := fun t => ∀ i < g.size, ¬ g.Evades reach next m i →
    m ∈ entryOf t i) ?_ ?_ i hi he
  · intro i hi he
    rw [mem_fullTable hi]
    by_cases hstop : g.Stops reach next i
    · by_contra hnot
      exact he (.stop (fun h => hnot (.inl h.symm)) hstop)
    · exact .inr ⟨hstop, hm⟩
  · intro t ht i hi he
    rw [mem_lowerStep hi]
    by_contra hnot
    push Not at hnot
    by_cases hstop : g.Stops reach next i
    · exact he (.stop (Ne.symm hnot.1) hstop)
    · obtain ⟨j, hj, hlost⟩ := hnot.2 hstop hm
      exact hlost (ht j (hnext i j hj) fun hrest => he (.step (Ne.symm hnot.1) hstop hj hrest))

/-- A block is left in a set when no path evades it. -/
theorem mem_lowered_iff (hbound : ∀ i ∈ reach, i < g.size)
    (hnext : ∀ i, ∀ j ∈ next i, j < g.size) (hi : i < g.size) (hm : m ∈ reach) :
    m ∈ entryOf (lowered g reach next) i ↔ ¬ g.Evades reach next m i :=
  ⟨not_evades_of_mem hbound hnext hi, mem_of_not_evades hnext hi hm⟩

/-- A set that was lowered belongs to a block from which some path stops. -/
theorem halts_of_ne (hnext : ∀ i, ∀ j ∈ next i, j < g.size) (hi : i < g.size) (hreach : i ∈ reach)
    (hne : entryOf (lowered g reach next) i ≠ reach) : g.Halts reach next i := by
  by_contra hnot
  refine hne (BlockSet.ext fun j => ⟨fun hj => ?_, fun hj => ?_⟩)
  · rcases within_lowered i j hj with hj | rfl
    · exact hj
    · exact hreach
  · exact mem_of_not_evades hnext hi hj fun he => hnot he.halts

/-! ## Sets of blocks with one entry -/

section Entry

variable {S : Nat → Prop}

/-- A path from outside a set of blocks with one entry that evades the entry evades the others. -/
theorem Evades.of_entry (hentry : ∀ i j, i ∈ reach → j ∈ next i → S j → j ≠ h → S i)
    (hm : S m) (he : g.Evades reach next h i) (hi : ¬ S i) : g.Evades reach next m i := by
  induction he with
  | stop _ hstop => exact .stop (fun heq => hi (heq ▸ hm)) hstop
  | step _ hgoes hj hrest ih =>
    refine .step (fun heq => hi (heq ▸ hm)) hgoes hj (ih fun hsj => hi ?_)
    exact hentry _ _ (mem_of_not_stops hgoes) hj hsj hrest.ne

/-- A path from outside a set of blocks with one entry evades the others when one from the entry
does. -/
theorem Halts.evades (hentry : ∀ i j, i ∈ reach → j ∈ next i → S j → j ≠ h → S i)
    (hm : S m) (he : g.Evades reach next m h) (hhalts : g.Halts reach next i) (hi : ¬ S i) :
    g.Evades reach next m i := by
  induction hhalts with
  | stop hstop => exact .stop (fun heq => hi (heq ▸ hm)) hstop
  | @step i j hgoes hj _ ih =>
    refine .step (fun heq => hi (heq ▸ hm)) hgoes hj ?_
    by_cases hsj : S j
    · by_cases hjh : j = h
      · exact hjh ▸ he
      · exact absurd (hentry i j (mem_of_not_stops hgoes) hj hsj hjh) hi
    · exact ih hsj

end Entry

/-- Of two blocks, some path from one evades the other, or some path evades both. -/
theorem Halts.evades_or (hne : h ≠ m) (hhalts : g.Halts reach next i) :
    g.Evades reach next m h ∨ g.Evades reach next h m ∨
      g.Evades reach next m i ∧ g.Evades reach next h i := by
  induction hhalts with
  | @stop i hstop =>
    by_cases hih : i = h
    · exact .inl (.stop hne (hih ▸ hstop))
    · by_cases him : i = m
      · exact .inr (.inl (.stop (Ne.symm hne) (him ▸ hstop)))
      · exact .inr (.inr ⟨.stop him hstop, .stop hih hstop⟩)
  | @step i j hgoes hj _ ih =>
    rcases ih with hfirst | hsecond | ⟨hm, hh⟩
    · exact .inl hfirst
    · exact .inr (.inl hsecond)
    · by_cases hih : i = h
      · exact .inl (.step hne (hih ▸ hgoes) (hih ▸ hj) hm)
      · by_cases him : i = m
        · exact .inr (.inl (.step (Ne.symm hne) (him ▸ hgoes) (him ▸ hj) hh))
        · exact .inr (.inr ⟨.step him hgoes hj hm, .step hih hgoes hj hh⟩)

/-! ## The nearest postdominator -/

/-- The nearest postdominator of a block outside a set of blocks that is entered at one of them only
is that one, or lies outside as well. -/
theorem eq_of_nearest {S : Nat → Prop} (hbound : ∀ i ∈ reach, i < g.size)
    (hnext : ∀ i, ∀ j ∈ next i, j < g.size)
    (hentry : ∀ i j, i ∈ reach → j ∈ next i → S j → j ≠ h → S i) (hh : h ∈ reach) (hSh : S h)
    (hi : i ∈ reach) (hSi : ¬ S i) (hm : m ∈ entryOf (g.postdominators reach next) i) (hmi : m ≠ i)
    (hnearest : entryOf (g.postdominators reach next) m =
      (entryOf (g.postdominators reach next) i).diff (.single i)) (hSm : S m) : m = h := by
  by_contra hmh
  have hreach : m ∈ reach := (postdominator_mem hm).resolve_right hmi
  have hset {k : Nat} (hk : k ∈ reach) : entryOf (g.postdominators reach next) k =
      if entryOf (lowered g reach next) k = reach ∧ k ≠ g.exit then .single k
      else entryOf (lowered g reach next) k := by
    rw [postdominators_eq, entryOf_tableOf, if_pos (hbound k hk)]
  rw [hset hi, hset hreach] at hnearest
  rw [hset hi] at hm
  -- The set of the first block was lowered, so that some path from it stops.
  split at hm
  · exact hmi (BlockSet.mem_single.mp hm)
  rename_i hlowered
  rw [if_neg hlowered] at hnearest
  have hevade := not_evades_of_mem hbound hnext (hbound i hi) hm
  have hhalts : g.Halts reach next i := by
    refine halts_of_ne hnext (hbound i hi) hi fun hfull => hlowered ⟨hfull, ?_⟩
    rintro rfl
    have hexit := hm
    rw [← lowerStep_lowered hbound, mem_lowerStep (hbound _ hi)] at hexit
    exact hmi (hexit.resolve_right fun hgoes => hgoes.1 (.inl rfl))
  -- Every path that stops passes the entry before the other block.
  have hentered : h ∈ entryOf (lowered g reach next) i :=
    mem_of_not_evades hnext (hbound i hi) hh fun he => hevade (he.of_entry hentry hSm hSi)
  have hstrict : h ∈ (entryOf (lowered g reach next) i).diff (.single i) := by
    rw [BlockSet.mem_diff, BlockSet.mem_single]
    exact ⟨hentered, fun heq => hSi (heq ▸ hSh)⟩
  rw [← hnearest] at hstrict
  split at hstrict
  · exact hmh (BlockSet.mem_single.mp hstrict).symm
  · have hback := not_evades_of_mem hbound hnext (hbound m hreach) hstrict
    rcases hhalts.evades_or (Ne.symm hmh) with hpast | hpast | hboth
    · exact hevade (hhalts.evades hentry hSm hpast hSi)
    · exact hback hpast
    · exact hevade hboth.1

end Unscript.Graph
