import Unscript.Proofs.Flow.Dominance
import Mathlib.Algebra.Order.BigOperators.Group.Finset
import Mathlib.Data.Finset.Card
import Mathlib.Tactic.Push

/-!
# Lowering tables of sets

A pass over a table takes members away from its sets until nothing changes. There are no more
members than the square of the count of blocks, so that the fuel is enough. A sweep does the same
in place: it replaces the sets one after another, each by what a pass gives it from the sets as they
are by then. Both ways end in the same table, the greatest one that a pass does not change.

* `Graph.Below`: a table whose sets lie in those of another.
* `Graph.Lowering`: a pass that keeps the order of tables and takes members away.
* `Graph.sweep`: one sweep in place, over blocks in some order.
* `Graph.Rests`: a step is repeated until it changes nothing.

Results:
* `Graph.greatest_fixed`: with enough fuel an iteration ends in a table that nothing changes.
* `Graph.Lowering.fixed`, `Graph.Lowering.below_greatest`: it is the greatest of those.
* `Graph.Lowering.rests_sweep`: sweeps come to rest in it.
-/

namespace Unscript.Graph

variable {i j size fuel n : Nat} {s t u start : Array BlockSet}
  {step : Array BlockSet → Array BlockSet}

/-! ## Enough fuel -/

/-- With enough fuel an iteration that lowers a measure ends in a table that nothing changes. -/
theorem greatest_fixed {P : Array BlockSet → Prop} (measure : Array BlockSet → Nat) (hP : P t)
    (hstep : ∀ t, P t → P (step t)) (hlt : ∀ t, P t → step t ≠ t → measure (step t) < measure t)
    (hfuel : measure t < fuel) : step (greatest step fuel t) = greatest step fuel t := by
  induction fuel generalizing t with
  | zero => exact absurd hfuel (Nat.not_lt_zero _)
  | succ fuel ih =>
    unfold greatest
    dsimp only
    split
    · rename_i heq
      exact heq
    · rename_i hne
      have := hlt t hP hne
      exact ih (hstep t hP) (by omega)

/-- The count of members in all sets of a table. -/
def members (size : Nat) (t : Array BlockSet) : Nat :=
  ∑ i ∈ Finset.range size, ((Finset.range size).filter (· ∈ entryOf t i)).card

theorem members_le (size : Nat) (t : Array BlockSet) : members size t ≤ size * size := by
  have hcard : ∀ i ∈ Finset.range size,
      ((Finset.range size).filter (· ∈ entryOf t i)).card ≤ size := by
    intro i _
    exact (Finset.card_filter_le _ _).trans_eq (Finset.card_range size)
  have hsum := Finset.sum_le_card_nsmul _ _ _ hcard
  rwa [Finset.card_range, Nat.nsmul_eq_mul] at hsum

theorem ext_entryOf (hs : s.size = size) (ht : t.size = size)
    (hentry : ∀ i < size, entryOf s i = entryOf t i) : s = t := by
  refine Array.ext (hs.trans ht.symm) fun i hi hi' => ?_
  have hsame := hentry i (hs ▸ hi)
  unfold entryOf at hsame
  rwa [Array.getElem?_eq_getElem hi, Array.getElem?_eq_getElem hi', Option.getD_some,
    Option.getD_some] at hsame

/-! ## The order of tables -/

/-- A table whose sets lie in those of another. -/
def Below (s t : Array BlockSet) : Prop :=
  ∀ i, ∀ j ∈ entryOf s i, j ∈ entryOf t i

theorem Below.refl (t : Array BlockSet) : Below t t :=
  fun _ _ hj => hj

theorem Below.trans (hst : Below s t) (htu : Below t u) : Below s u :=
  fun i j hj => htu i j (hst i j hj)

theorem Below.antisymm (hs : s.size = size) (ht : t.size = size) (hst : Below s t)
    (hts : Below t s) : s = t :=
  ext_entryOf hs ht fun i _ => BlockSet.ext fun j => ⟨hst i j, hts i j⟩

/-- A table that loses members has fewer of them. -/
theorem members_lt (hs : s.size = size) (ht : t.size = size) (hle : Below s t)
    (hbound : ∀ i < size, ∀ j ∈ entryOf t i, j < size) (hne : s ≠ t) :
    members size s < members size t := by
  obtain ⟨i, hi, hentry⟩ : ∃ i < size, entryOf s i ≠ entryOf t i := by
    by_contra hall
    push Not at hall
    exact hne (ext_entryOf hs ht hall)
  obtain ⟨j, hj, hlost⟩ : ∃ j ∈ entryOf t i, j ∉ entryOf s i := by
    by_contra hall
    push Not at hall
    exact hentry (BlockSet.ext fun j => ⟨hle i j, hall j⟩)
  have hsub (i : Nat) : (Finset.range size).filter (· ∈ entryOf s i) ⊆
      (Finset.range size).filter (· ∈ entryOf t i) :=
    Finset.monotone_filter_right _ fun j _ => hle i j
  refine Finset.sum_lt_sum (fun i _ => Finset.card_le_card (hsub i)) ?_
  refine ⟨i, Finset.mem_range.mpr hi, Finset.card_lt_card ⟨hsub i, fun hback => hlost ?_⟩⟩
  have hmem := hback (Finset.mem_filter.mpr ⟨Finset.mem_range.mpr (hbound i hi j hj), hj⟩)
  exact (Finset.mem_filter.mp hmem).2

/-! ## Passes -/

/-- A pass that keeps the order of tables, and takes members away from the first one. -/
structure Lowering (size : Nat) (step : Array BlockSet → Array BlockSet)
    (start : Array BlockSet) : Prop where
  size_start : start.size = size
  size_step : ∀ t, (step t).size = size
  mono : ∀ {s t}, Below s t → Below (step s) (step t)
  first : Below (step start) start
  bound : ∀ i < size, ∀ j ∈ entryOf start i, j < size

/-- A table on the way down: a pass still takes members away. -/
structure Falling (size : Nat) (step : Array BlockSet → Array BlockSet) (start t : Array BlockSet) :
    Prop where
  size : t.size = size
  below : Below t start
  falls : Below (step t) t

namespace Lowering

variable (h : Lowering size step start)

include h

theorem falling_start : Falling size step start start :=
  ⟨h.size_start, Below.refl start, h.first⟩

theorem falling_step (ht : Falling size step start t) : Falling size step start (step t) :=
  ⟨h.size_step t, ht.falls.trans ht.below, h.mono ht.falls⟩

theorem lt_of_falling (ht : Falling size step start t) :
    ∀ i < size, ∀ j ∈ entryOf t i, j < size :=
  fun i hi j hj => h.bound i hi j (ht.below i j hj)

/-- The iteration ends in a table that a pass does not change. -/
theorem fixed : step (greatest step (size * size + 1) start) =
    greatest step (size * size + 1) start := by
  refine greatest_fixed (members size) (P := Falling size step start) h.falling_start
    (fun t => h.falling_step) (fun t ht hne => ?_) (Nat.lt_succ_of_le (members_le _ _))
  exact members_lt (h.size_step t) ht.size ht.falls (h.lt_of_falling ht) hne

theorem falling_greatest : Falling size step start (greatest step fuel start) :=
  greatest_induction (P := Falling size step start) h.falling_start fun _ => h.falling_step

/-- No other table that a pass does not change is greater. -/
theorem below_greatest (ht : Below t start) (hfixed : step t = t) :
    Below t (greatest step fuel start) :=
  greatest_induction (P := Below t) ht fun u hu => by
    rw [← hfixed]
    exact h.mono hu

end Lowering

/-! ## Sweeps in place -/

theorem entryOf_set {x : BlockSet} (hi : i < t.size) :
    entryOf (t.setIfInBounds i x) j = if j = i then x else entryOf t j := by
  unfold entryOf
  rw [Array.getElem?_setIfInBounds]
  split_ifs with hij hji hji
  · rfl
  · exact absurd hij.symm hji
  · exact absurd hji.symm hij
  · rfl

/-- One sweep over blocks in some order: each set is replaced by what a pass gives it from the table
as it is by then. -/
def sweep (step : Array BlockSet → Array BlockSet) (order : List Nat) (t : Array BlockSet) :
    Array BlockSet :=
  order.foldl (fun t i => t.setIfInBounds i (entryOf (step t) i)) t

/-- A step is repeated as long as it changes the table: after `n` times it changes nothing more. -/
inductive Rests (step : Array BlockSet → Array BlockSet) :
    Nat → Array BlockSet → Array BlockSet → Prop
  | now {t : Array BlockSet} (h : step t = t) : Rests step 0 t t
  | later {n : Nat} {t u : Array BlockSet} (h : step t ≠ t) (hrest : Rests step n (step t) u) :
      Rests step (n + 1) t u

/-- A step that lowers a measure comes to rest. -/
theorem exists_rests (step : Array BlockSet → Array BlockSet) {P : Array BlockSet → Prop}
    (measure : Array BlockSet → Nat) (hP : P t)
    (hstep : ∀ t, P t → P (step t)) (hlt : ∀ t, P t → step t ≠ t → measure (step t) < measure t) :
    ∃ n ≤ measure t, ∃ u, Rests step n t u ∧ P u ∧ step u = u := by
  induction hm : measure t using Nat.strong_induction_on generalizing t with
  | _ m ih =>
    subst hm
    by_cases hrest : step t = t
    · exact ⟨0, Nat.zero_le _, t, .now hrest, hP, hrest⟩
    · have hless := hlt t hP hrest
      obtain ⟨n, hn, u, hu, hPu⟩ := ih _ hless (hstep t hP) rfl
      exact ⟨n + 1, by omega, u, .later hrest hu, hPu⟩

namespace Lowering

variable (h : Lowering size step start)

include h

/-- Replacing one set takes members away, and keeps what a pass does not change. -/
theorem falling_set (ht : Falling size step start t) :
    Falling size step start (t.setIfInBounds i (entryOf (step t) i)) ∧
      Below (t.setIfInBounds i (entryOf (step t) i)) t := by
  by_cases hi : i < t.size
  · have hbelow : Below (t.setIfInBounds i (entryOf (step t) i)) t := by
      intro k j hj
      rw [entryOf_set hi] at hj
      split_ifs at hj with hk
      · exact hk ▸ ht.falls i j hj
      · exact hj
    refine ⟨⟨(Array.size_setIfInBounds ..).trans ht.size, hbelow.trans ht.below, ?_⟩, hbelow⟩
    intro k j hj
    have hj := h.mono hbelow k j hj
    rw [entryOf_set hi]
    split_ifs with hk
    · exact hk ▸ hj
    · exact ht.falls k j hj
  · rw [Array.setIfInBounds_eq_of_size_le (Nat.not_lt.mp hi)]
    exact ⟨ht, Below.refl t⟩

theorem below_set (hu : Below u t) (hfixed : step u = u) :
    Below u (t.setIfInBounds i (entryOf (step t) i)) := by
  by_cases hi : i < t.size
  · intro k j hj
    rw [entryOf_set hi]
    split_ifs with hk
    · subst hk
      exact h.mono hu k j (by rwa [hfixed])
    · exact hu k j hj
  · rwa [Array.setIfInBounds_eq_of_size_le (Nat.not_lt.mp hi)]

variable {order : List Nat}

theorem falling_sweep (order : List Nat) (ht : Falling size step start t) :
    Falling size step start (sweep step order t) ∧ Below (sweep step order t) t := by
  induction order generalizing t with
  | nil => exact ⟨ht, Below.refl t⟩
  | cons i order ih =>
    obtain ⟨hset, hbelow⟩ := h.falling_set (i := i) ht
    obtain ⟨hsweep, hrest⟩ := ih hset
    exact ⟨hsweep, hrest.trans hbelow⟩

theorem below_sweep (hu : Below u t) (hfixed : step u = u) : Below u (sweep step order t) := by
  induction order generalizing t with
  | nil => exact hu
  | cons i order ih => exact ih (h.below_set hu hfixed)

/-- Where a sweep changes nothing, a pass does not change the sets that are swept. -/
theorem entryOf_step_of_sweep (ht : Falling size step start t) (hrest : sweep step order t = t) :
    ∀ i ∈ order, i < size → entryOf (step t) i = entryOf t i := by
  induction order with
  | nil => exact fun _ hi => absurd hi List.not_mem_nil
  | cons i order ih =>
    -- The sets only lose members on the way, so the first one lost none.
    obtain ⟨hset, hbelow⟩ := h.falling_set (i := i) ht
    have hback : Below t (t.setIfInBounds i (entryOf (step t) i)) :=
      fun k j hj => (h.falling_sweep order hset).2 k j (hrest.symm ▸ hj)
    have hsame : t.setIfInBounds i (entryOf (step t) i) = t :=
      hbelow.antisymm hset.size ht.size hback
    have hothers : sweep step order t = t := by
      rw [sweep, List.foldl_cons, hsame] at hrest
      exact hrest
    refine List.forall_mem_cons.mpr ⟨fun hi => ?_, ih hothers⟩
    rw [← ht.size] at hi
    have hentry := entryOf_set (j := i) (x := entryOf (step t) i) hi
    rw [hsame, if_pos rfl] at hentry
    exact hentry.symm

/-- **Sweeps come to rest** in the table that the passes end in, after no more of them than the
square of the count of blocks, if they do not leave out sets that a pass can change. -/
theorem rests_sweep
    (hleft : ∀ i < size, i ∉ order → ∀ t, entryOf (step t) i = entryOf start i) :
    ∃ n ≤ size * size,
      Rests (sweep step order) n start (greatest step (size * size + 1) start) := by
  -- All tables on the way are above the one that the passes end in.
  obtain ⟨n, hn, u, hrests, ⟨hfalling, habove⟩, hrest⟩ := exists_rests (sweep step order)
    (members size) (P := fun t => Falling size step start t ∧
      Below (greatest step (size * size + 1) start) t)
    ⟨h.falling_start, h.falling_greatest.below⟩
    (fun t ht => ⟨(h.falling_sweep order ht.1).1, h.below_sweep ht.2 h.fixed⟩)
    fun t ht hne => members_lt (h.falling_sweep order ht.1).1.size ht.1.size
      (h.falling_sweep order ht.1).2 (h.lt_of_falling ht.1) hne
  refine ⟨n, hn.trans (members_le _ _), ?_⟩
  have hfixed : step u = u := by
    refine ext_entryOf (h.size_step u) hfalling.size fun i hi => ?_
    by_cases horder : i ∈ order
    · exact h.entryOf_step_of_sweep hfalling hrest i horder hi
    · rw [hleft i hi horder u]
      refine BlockSet.ext fun j => ⟨fun hj => ?_, hfalling.below i j⟩
      exact hfalling.falls i j (by rwa [hleft i hi horder u])
  have hsame : greatest step (size * size + 1) start = u :=
    habove.antisymm h.falling_greatest.size hfalling.size
      (h.below_greatest hfalling.below hfixed)
  rwa [hsame]

end Lowering

end Unscript.Graph
