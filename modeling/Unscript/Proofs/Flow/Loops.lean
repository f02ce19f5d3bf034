import Unscript.Proofs.Flow.Analysis
import Unscript.Proofs.Flow.Postdominance
import Mathlib.Combinatorics.Enumerative.DoubleCounting

/-!
# Natural loops

A loop is entered at its header only: every other block of its body has all its reachable
predecessors in the body. Where two loops share blocks, this tells which of them lies in the other.

Results:
* `Flow.Analysed.pred_mem_body`: loops are entered at their headers.
* `Flow.Analysed.body_induction`: what holds of the latches and is kept by predecessors holds of the
  whole body.
* `Flow.Analysed.latch_or_next`: a block of a body is a latch or goes on inside the body.
* `Flow.Analysed.join?_mem_of_entry`: a conditional that meets inside a set of blocks with one entry
  stands in the set; `Flow.Analysed.join?_mem_body`: so it is for a loop.
* `Flow.Analysed.header_mem_body`: a loop with an exit into another loop stands in it.
-/

namespace Unscript.Flow.Analysed

variable {f : Flow} {a b c x y : Nat} {l l' : Loop}

/-! ## Predecessors -/

theorem preds_eq (h : f.Analysed) (x : Nat) :
    f.preds x = if x < f.graph.size then f.graph.predecessors x else [] := by
  have hpreds : f.predecessors = ((List.range f.graph.size).map f.graph.predecessors).toArray :=
    congrArg Flow.predecessors h.eq
  unfold Flow.preds
  rw [hpreds, List.getElem?_toArray, List.getElem?_map]
  by_cases hx : x < f.graph.size
  · rw [List.getElem?_range hx, Option.map_some, Option.getD_some, if_pos hx]
  · rw [List.getElem?_eq_none (by simpa using hx), Option.map_none, Option.getD_none, if_neg hx]

theorem mem_preds (h : f.Analysed) : y ∈ f.preds x ↔
    x < f.graph.size ∧ y < f.graph.size ∧ x ∈ (f.ending y).successors := by
  rw [h.preds_eq]
  split
  · rename_i hx
    rw [Graph.predecessors, List.mem_filter, List.mem_range, List.contains_iff_mem]
    exact ⟨fun hy => ⟨hx, hy⟩, fun hy => hy.2⟩
  · rename_i hx
    exact ⟨fun hy => absurd hy List.not_mem_nil, fun hy => absurd hy.1 hx⟩

theorem lt_size (h : f.Analysed) (hx : x ∈ f.reachable) : x < f.graph.size := by
  have := h.le_exit hx
  rw [h.size_eq]
  omega

theorem mem_preds_of_next (h : f.Analysed) (hy : y ∈ f.reachable)
    (hx : x ∈ (f.ending y).successors) : y ∈ f.preds x :=
  h.mem_preds.mpr ⟨h.lt_size (h.next_mem hy hx), h.lt_size hy, hx⟩

theorem dominators_eq (h : f.Analysed) :
    f.dominators = f.graph.dominators f.reachable f.preds := by
  have hpreds : f.preds = fun i =>
      ((List.range f.graph.size).map f.graph.predecessors).toArray[i]?.getD [] := by
    funext i
    exact congrArg (fun t => t[i]?.getD []) (congrArg Flow.predecessors h.eq)
  rw [h.reachable_eq, hpreds]
  exact congrArg Flow.dominators h.eq

/-- There are no more edges than two from each block, in either direction. -/
theorem sum_preds_le (h : f.Analysed) :
    ∑ i ∈ Finset.range f.graph.size, (f.preds i).length ≤ 2 * f.graph.size := by
  have hlength : ∀ i ∈ Finset.range f.graph.size, (f.preds i).length =
      ((Finset.range f.graph.size).filter fun y => i ∈ (f.ending y).successors).card := by
    intro i hi
    have hnodup : (f.preds i).Nodup := by
      rw [h.preds_eq, if_pos (Finset.mem_range.mp hi)]
      exact List.nodup_range.filter _
    rw [← List.toFinset_card_of_nodup hnodup]
    congr 1
    ext y
    rw [List.mem_toFinset, h.mem_preds, Finset.mem_filter, Finset.mem_range]
    exact ⟨fun hy => hy.2, fun hy => ⟨Finset.mem_range.mp hi, hy⟩⟩
  have htwo : ∀ y ∈ Finset.range f.graph.size,
      ((Finset.range f.graph.size).filter fun i => i ∈ (f.ending y).successors).card ≤ 2 := by
    intro y _
    refine (Finset.card_le_card (t := (f.ending y).successors.toFinset) fun i hi => ?_).trans
      ((List.toFinset_card_le _).trans (Ending.length_successors_le _))
    exact List.mem_toFinset.mpr (Finset.mem_filter.mp hi).2
  calc ∑ i ∈ Finset.range f.graph.size, (f.preds i).length
      = ∑ i ∈ Finset.range f.graph.size,
          ((Finset.range f.graph.size).filter fun y => i ∈ (f.ending y).successors).card :=
        Finset.sum_congr rfl hlength
    _ = ∑ y ∈ Finset.range f.graph.size,
          ((Finset.range f.graph.size).filter fun i => i ∈ (f.ending y).successors).card :=
        (Finset.sum_card_bipartiteAbove_eq_sum_card_bipartiteBelow
          (fun y i => i ∈ (f.ending y).successors)).symm
    _ ≤ (Finset.range f.graph.size).card • 2 := Finset.sum_le_card_nsmul _ _ _ htwo
    _ = 2 * f.graph.size := by rw [Finset.card_range, Nat.nsmul_eq_mul, Nat.mul_comm]

/-! ## The body of a loop -/

/-- The predecessors that a natural loop follows. -/
def before (f : Flow) (i : Nat) : List Nat :=
  (f.preds i).filter (· ∈ f.reachable)

theorem mem_before (h : f.Analysed) : y ∈ before f x ↔
    y ∈ f.reachable ∧ x ∈ (f.ending y).successors := by
  unfold before
  rw [List.mem_filter, decide_eq_true_eq]
  constructor
  · exact fun hy => ⟨hy.2, (h.mem_preds.mp hy.1).2.2⟩
  · exact fun hy => ⟨h.mem_preds_of_next hy.1 hy.2, hy.1⟩

theorem demand_before_le (h : f.Analysed) (seen : BlockSet) :
    Graph.demand (before f) f.graph.size seen ≤ 2 * f.graph.size := by
  refine Nat.le_trans ?_ h.sum_preds_le
  show _ ≤ ((List.range f.graph.size).map fun i => (f.preds i).length).sum
  unfold Graph.demand
  calc _ ≤ ((List.range f.graph.size).map fun i => (before f i).length).sum :=
        ((List.filter_sublist).map _).sum_le_sum fun _ _ => Nat.zero_le _
    _ ≤ _ := List.sum_le_sum fun i _ => List.length_filter_le _ _

/-- A natural loop holds its latch, and every reachable predecessor of a block but the header. -/
theorem naturalLoop_complete (h : f.Analysed) (header latch : Nat) :
    latch ∈ naturalLoop f.reachable f.preds f.graph.size header latch ∧
      ∀ x ∈ naturalLoop f.reachable f.preds f.graph.size header latch, x ≠ header →
        ∀ y ∈ before f x, y ∈ naturalLoop f.reachable f.preds f.graph.size header latch := by
  have hout (i : Nat) (hi : f.graph.size ≤ i) : before f i = [] := by
    unfold before
    rw [h.preds_eq, if_neg (Nat.not_lt.mpr hi), List.filter_nil]
  have hfuel : [latch].length + Graph.demand (before f) f.graph.size (.single header) ≤
      2 * f.graph.size + 2 := by
    have := h.demand_before_le (.single header)
    rw [List.length_singleton]
    omega
  obtain ⟨-, hwork, hnext⟩ := Graph.closure_complete hout hfuel
  refine ⟨hwork latch (List.mem_singleton_self latch), fun x hx hne => hnext x hx fun hx => ?_⟩
  exact hne (BlockSet.mem_single.mp hx)

/-- The header of a loop and its latches stand in its body. -/
theorem header_mem (h : f.Analysed) (hl : f.loopAt? b = some l) : b ∈ l.body := by
  obtain ⟨edges, -, -, rfl⟩ := h.loop_eq hl
  exact mem_loopOf_body.mpr (.inl rfl)

theorem mem_loopOf_latches {g : Graph} {reach : BlockSet} {dom : Array BlockSet}
    {preds : Nat → List Nat} {edges : List (Nat × Nat × Graph.EdgeKind)} :
    x ∈ (loopOf g reach dom preds a edges).latches ↔ ∃ e ∈ edges, e.1 = x := by
  unfold loopOf
  dsimp only
  rw [BlockSet.mem_ofList, List.mem_map]

/-- A latch is reachable and leads to the header. -/
theorem latch_next (h : f.Analysed) (hl : f.loopAt? b = some l) (hx : x ∈ l.latches) :
    x ∈ f.reachable ∧ b ∈ (f.ending x).successors := by
  obtain ⟨edges, hedges, -, rfl⟩ := h.loop_eq hl
  obtain ⟨e, he, rfl⟩ := mem_loopOf_latches.mp hx
  obtain ⟨hreturning, rfl⟩ := hedges e he
  exact mem_of_returning hreturning

theorem latch_mem (h : f.Analysed) (hl : f.loopAt? b = some l) (hx : x ∈ l.latches) :
    x ∈ l.body := by
  obtain ⟨edges, -, -, rfl⟩ := h.loop_eq hl
  obtain ⟨e, he, rfl⟩ := mem_loopOf_latches.mp hx
  exact mem_loopOf_body.mpr (.inr ⟨e, he, (h.naturalLoop_complete b e.1).1⟩)

/-- Loops are entered at their headers. -/
theorem pred_mem_body (h : f.Analysed) (hl : f.loopAt? b = some l) (hx : x ∈ l.body) (hne : x ≠ b)
    (hy : y ∈ f.reachable) (hnext : x ∈ (f.ending y).successors) : y ∈ l.body := by
  obtain ⟨edges, -, -, rfl⟩ := h.loop_eq hl
  rcases mem_loopOf_body.mp hx with rfl | ⟨e, he, hx⟩
  · exact absurd rfl hne
  · have hclosed := (h.naturalLoop_complete b e.1).2 x hx hne y (h.mem_before.mpr ⟨hy, hnext⟩)
    exact mem_loopOf_body.mpr (.inr ⟨e, he, hclosed⟩)

/-- A block that leads to the header and is dominated by it is a latch. -/
theorem mem_body_of_dominator (h : f.Analysed) (hl : f.loopAt? b = some l) (hx : x ∈ f.reachable)
    (hnext : b ∈ (f.ending x).successors) (hdom : b ∈ Graph.entryOf f.dominators x) :
    x ∈ l.body := by
  obtain ⟨-, rfl⟩ := h.loop_eq_filter hl
  have hreturning := mem_returning_of_dominator (h.lt_size hx) hx hnext hdom
  refine mem_loopOf_body.mpr (.inr ⟨(x, b, .back), ?_, (h.naturalLoop_complete b x).1⟩)
  exact List.mem_filter.mpr ⟨hreturning, beq_self_eq_true b⟩

/-- What holds of the header and the latches and is kept by predecessors holds of the whole body. -/
theorem body_induction (h : f.Analysed) (hl : f.loopAt? b = some l) {P : Nat → Prop} (hb : P b)
    (hlatches : ∀ t ∈ l.latches, P t)
    (hpreds : ∀ x ∈ l.body, x ≠ b → P x → ∀ y ∈ f.reachable, x ∈ (f.ending y).successors → P y) :
    ∀ x ∈ l.body, P x := by
  obtain ⟨edges, -, -, rfl⟩ := h.loop_eq hl
  intro x hx
  rcases mem_loopOf_body.mp hx with rfl | ⟨e, he, hx⟩
  · exact hb
  · have hfirst : ∀ i ∈ BlockSet.single b, i ∈ BlockSet.single b := fun i hi => hi
    have hall : ∀ i ∈ naturalLoop f.reachable f.preds f.graph.size b e.1,
        i ∈ (loopOf f.graph f.reachable f.dominators f.preds b edges).body :=
      fun i hi => mem_loopOf_body.mpr (.inr ⟨e, he, hi⟩)
    refine Graph.closure_induction hfirst hall ?_ ?_ ?_ x hx
    · intro i hi
      rwa [BlockSet.mem_single.mp hi]
    · intro i hi
      rw [List.mem_singleton.mp hi]
      exact hlatches _ (mem_loopOf_latches.mpr ⟨e, he, rfl⟩)
    · intro i hi hfirst hp j hj
      have hj := h.mem_before.mp hj
      exact hpreds i hi (fun heq => hfirst (BlockSet.mem_single.mpr heq)) hp j hj.1 hj.2

/-- A block of a body is the header, or a latch, or it goes on inside the body. -/
theorem latch_or_next (h : f.Analysed) (hl : f.loopAt? b = some l) (hx : x ∈ l.body) (hne : x ≠ b) :
    x ∈ l.latches ∨ ∃ y ∈ l.body, y ≠ b ∧ y ∈ (f.ending x).successors := by
  have hall : x = b ∨ x ∈ l.latches ∨ ∃ y ∈ l.body, y ≠ b ∧ y ∈ (f.ending x).successors := by
    refine h.body_induction hl (P := fun x => x = b ∨ x ∈ l.latches ∨
      ∃ y ∈ l.body, y ≠ b ∧ y ∈ (f.ending x).successors) (.inl rfl) ?_ ?_ x hx
    · exact fun t ht => .inr (.inl ht)
    · exact fun y hy hyb _ z _ hz => .inr (.inr ⟨y, hy, hyb, hz⟩)
  exact hall.resolve_left hne

/-! ## Reducible loops -/

theorem reducible_eq (hl : f.Analysed) : ∀ a l, f.loopAt? a = some l → l.reducible = true →
    ∀ x ∈ l.body, a ∈ Graph.entryOf f.dominators x := by
  intro a l hloop hreducible x hx
  obtain ⟨edges, -, -, rfl⟩ := hl.loop_eq hloop
  have hall := (Bool.and_eq_true_iff.mp hreducible).2
  exact List.all_eq_true.mp hall x (BlockSet.mem_toList.mpr hx)

/-- Only itself dominates the entry. -/
theorem dominators_zero (h : f.Analysed) (hx : x ∈ Graph.entryOf f.dominators 0) : x = 0 := by
  exact Graph.dominator_zero (h.dominators_eq ▸ hx)

/-- The entry stands in a reducible loop only as its header. -/
theorem header_eq_zero (h : f.Analysed) (hl : f.loopAt? b = some l) (hr : l.reducible = true)
    (hzero : 0 ∈ l.body) : b = 0 :=
  h.dominators_zero (h.reducible_eq b l hl hr 0 hzero)

/-- What holds of the entry and is kept along edges holds of every block that goes on. -/
theorem reachable_induction (h : f.Analysed) {P : Nat → Prop} (hzero : P 0)
    (hnext : ∀ y ∈ f.reachable, P y → ∀ x ∈ (f.ending y).successors, P x) (hx : x ∈ f.reachable)
    (hgoes : x ≠ f.exit) : P x := by
  have hentered : x ∈ entered f := (h.mem_reachable.mp hx).resolve_right hgoes
  have hfirst : ∀ i ∈ BlockSet.empty, i ∈ BlockSet.empty := fun i hi => hi
  have hall : ∀ i ∈ entered f, i ∈ entered f := fun i hi => hi
  refine Graph.closure_induction hfirst hall ?_ ?_ ?_ x hentered
  · exact fun i hi => absurd hi (BlockSet.not_mem_empty i)
  · intro i hi
    rwa [List.mem_singleton.mp hi]
  · exact fun i hi _ hp j hj => hnext i (h.mem_reachable.mpr (.inl hi)) hp j hj

/-- A block of a body goes on. -/
theorem ne_exit_of_mem (h : f.Analysed) (hl : f.loopAt? b = some l) (hx : x ∈ l.body)
    (hne : x ≠ b) : x ≠ f.exit := by
  rintro rfl
  have hexit : f.ending f.exit = .exit := h.proper.ending_exit
  rcases h.latch_or_next hl hx hne with ht | ⟨y, -, -, hy⟩
  · have hnext := (h.latch_next hl ht).2
    rw [hexit] at hnext
    cases hnext
  · rw [hexit] at hy
    cases hy

/-! ## Loops that share blocks -/

section Shared

variable (h : f.Analysed) (hl : f.loopAt? a = some l) (hl' : f.loopAt? b = some l')
  (hr : l'.reducible = true) (ha : a ∉ l'.body)

include h hl hl' hr ha

/-- A loop that shares a block with a reducible one which its header is not in holds the header of
the other. -/
theorem shared_header (hc : c ∈ l.body) (hc' : c ∈ l'.body) : b ∈ l.body := by
  by_cases hcb : c = b
  · exact hcb ▸ hc
  have hgoes := h.ne_exit_of_mem hl' hc' hcb
  refine h.reachable_induction (P := fun x => x ∈ l.body → x ∈ l'.body → b ∈ l.body) ?_ ?_
    (h.body_mem hl hc) hgoes hc hc'
  · intro hzero hzero'
    rwa [h.header_eq_zero hl' hr hzero']
  · intro y hy hp x hx hxl hxl'
    by_cases hxb : x = b
    · exact hxb ▸ hxl
    · have hxa : x ≠ a := fun heq => ha (heq ▸ hxl')
      exact hp (h.pred_mem_body hl hxl hxa hy hx) (h.pred_mem_body hl' hxl' hxb hy hx)

/-- Then it holds the whole of the other. -/
theorem shared_body (hc : c ∈ l.body) (hc' : c ∈ l'.body) : ∀ x ∈ l'.body, x ∈ l.body := by
  have hb := shared_header h hl hl' hr ha hc hc'
  have hba : b ≠ a := fun heq => ha (heq ▸ h.header_mem hl')
  refine h.body_induction hl' hb ?_ ?_
  · intro t ht
    obtain ⟨hreach, hnext⟩ := h.latch_next hl' ht
    exact h.pred_mem_body hl hb hba hreach hnext
  · intro x hx _ hxl y hy hnext
    exact h.pred_mem_body hl hxl (fun heq => ha (heq ▸ hx)) hy hnext

end Shared

/-- An edge leads from a loop to each of its exits. -/
theorem exists_of_mem_exits (h : f.Analysed) (hl : f.loopAt? a = some l) (hx : x ∈ l.exits) :
    ∃ c ∈ l.body, x ∈ (f.ending c).successors ∧ x ∉ l.body := by
  obtain ⟨edges, -, -, rfl⟩ := h.loop_eq hl
  obtain ⟨⟨c, hc, hcx⟩, hout⟩ := mem_loopOf_exits.mp hx
  exact ⟨c, hc, hcx, hout⟩

/-- A loop with an exit into a reducible loop, behind its header, stands in that loop. -/
theorem header_mem_body (h : f.Analysed) (hl : f.loopAt? a = some l) (hl' : f.loopAt? b = some l')
    (hr : l'.reducible = true) (hx : x ∈ l.exits) (hx' : x ∈ l'.body) (hne : x ≠ b) :
    a ∈ l'.body := by
  obtain ⟨c, hc, hcx, hout⟩ := h.exists_of_mem_exits hl hx
  by_contra ha
  have hc' := h.pred_mem_body hl' hx' hne (h.body_mem hl hc) hcx
  exact hout (shared_body h hl hl' hr ha hc hc' x hx')

/-! ## Joins -/

/-- A conditional that meets inside a set of blocks with one entry, behind the entry, stands in the
set. -/
theorem join?_mem_of_entry (h : f.Analysed) {S : Nat → Prop} (hb : b ∈ f.reachable) (hSb : S b)
    (hentry : ∀ y ∈ f.reachable, ∀ x ∈ (f.ending y).successors, S x → x ≠ b → S y)
    (hj : f.join? c = some x) (hx : S x) (hne : x ≠ b) : S c := by
  obtain ⟨next, hsub, hnext⟩ : ∃ next : Nat → List Nat,
      (∀ i, ∀ j ∈ next i, j ∈ (f.ending i).successors) ∧
        f.forwardPostdominators = f.graph.postdominators f.reachable next := by
    rw [h.reachable_eq]
    exact ⟨_, fun i j hj => (List.mem_filter.mp hj).1, congrArg Flow.forwardPostdominators h.eq⟩
  have hbound : ∀ i ∈ f.reachable, i < f.graph.size := fun i => h.lt_size
  have hsize (i j : Nat) (hj : j ∈ next i) : j < f.graph.size := by
    have htarget : j ≤ f.exit := h.proper.targets i j (hsub i j hj)
    rw [h.size_eq]
    omega
  unfold Flow.join? at hj
  split at hj
  · split at hj
    · rename_i hreach
      unfold Flow.immediatePostdominator? at hj
      have hstrict := BlockSet.mem_toList.mp (List.mem_of_find?_eq_some hj)
      have hnearest := List.find?_some hj
      rw [hnext] at hstrict hnearest
      rw [BlockSet.mem_diff, BlockSet.mem_single] at hstrict
      by_contra hc
      refine hne (Graph.eq_of_nearest (S := S) hbound hsize ?_ hb hSb hreach hc hstrict.1 hstrict.2
        (eq_of_beq hnearest) hx)
      exact fun i j hi hj hSj hjb => hentry i hi j (hsub i j hj) hSj hjb
    · cases hj
  · cases hj

/-- The arms of a conditional that can be reached do not meet at the conditional itself. -/
theorem ne_of_join? (hj : f.join? c = some x) : c ∈ f.reachable ∧ x ≠ c := by
  unfold Flow.join? at hj
  split at hj
  · split at hj
    · rename_i hreach
      have hstrict := BlockSet.mem_toList.mp (List.mem_of_find?_eq_some hj)
      rw [BlockSet.mem_diff, BlockSet.mem_single] at hstrict
      exact ⟨hreach, hstrict.2⟩
    · cases hj
  · cases hj

/-- A conditional that meets inside a loop, behind its header, stands in the loop. -/
theorem join?_mem_body (h : f.Analysed) (hl : f.loopAt? b = some l) (hj : f.join? c = some x)
    (hx : x ∈ l.body) (hne : x ≠ b) : c ∈ l.body :=
  h.join?_mem_of_entry (S := (· ∈ l.body)) (h.body_mem hl (h.header_mem hl)) (h.header_mem hl)
    (fun _ hy _ hnext hx hne => h.pred_mem_body hl hx hne hy hnext) hj hx hne

end Unscript.Flow.Analysed
