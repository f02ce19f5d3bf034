import Unscript.Proofs.Flow.Loops
import Unscript.Proofs.Flow.Route
import Unscript.Proofs.Flow.Transfers

/-!
# Dominators

A block dominates another when every path from the entry to that one passes it. The dominators that
are computed are exactly these: a block stays in a set only if it stays in the sets of all
predecessors, back to the entry; and none that all paths pass is ever taken away.

* `Graph.Arrow`: an edge between two blocks.

Results:
* `Flow.Analysed.mem_route_of_dominator`: a dominator lies on every path from the entry.
* `Flow.Analysed.dominator_of_routes`: what lies on every path is a dominator.
* `Flow.Analysed.rests_dominators`: the sets are lowered in place until nothing changes.
* `Flow.dominators_exact`: the dominators of a function that was decoded to its end.
-/

namespace Unscript

/-! ## Edges -/

theorem Ending.mem_successors_iff {e : Ending} {a b : Nat} :
    b ∈ e.successors ↔ ∃ x ∈ e.edges a, x.target = b := by
  have htwo (x y : Nat) : b ∈ (if x = y then [x] else [x, y]) ↔ x = b ∨ y = b := by
    split_ifs with hxy
    · simp [hxy, eq_comm]
    · simp [eq_comm]
  cases e with
  | jump | ret | fallthrough => simp [Ending.successors, Ending.edges, eq_comm]
  | cond | iterBegin | iterNext => simp [Ending.successors, Ending.edges, htwo]
  | exit => simp [Ending.successors, Ending.edges]

theorem Ending.source_of_mem_edges {e : Ending} {a : Nat} {x : Edge} (hx : x ∈ e.edges a) :
    x.source = a := by
  cases e <;> simp [Ending.edges] at hx
  case jump | ret | fallthrough => rw [hx]
  case cond | iterBegin | iterNext => obtain rfl | rfl := hx <;> rfl

/-- An edge leads from one block to another. -/
def Graph.Arrow (g : Graph) (a b : Nat) : Prop :=
  ∃ e ∈ g.edges, e.source = a ∧ e.target = b

namespace Flow

namespace Analysed

variable {f : Flow} {a b n x : Nat} {r : List Nat}

/-- The edges of a block are those to its successors. -/
theorem arrow_iff (h : f.Analysed) : f.graph.Arrow a b ↔ b ∈ (f.ending a).successors := by
  have hmem {e : Edge} := Graph.mem_edges (e := e) h.proper.ending_exit h.size_eq
  constructor
  · rintro ⟨e, he, rfl, rfl⟩
    obtain ⟨c, -, he⟩ := hmem.mp he
    rw [Ending.source_of_mem_edges he]
    exact Ending.mem_successors_iff.mpr ⟨e, he, rfl⟩
  · intro hb
    have ha : a < f.graph.exit := by
      by_contra hge
      have hexit : f.ending a = .exit := by
        rcases Nat.eq_or_lt_of_le (Nat.not_lt.mp hge) with rfl | hlt
        · exact h.proper.ending_exit
        · exact h.ending_of_exit_lt hlt
      rw [hexit] at hb
      cases hb
    obtain ⟨e, he, rfl⟩ := (Ending.mem_successors_iff (a := a)).mp hb
    exact ⟨e, hmem.mpr ⟨a, ha, he⟩, Ending.source_of_mem_edges he, rfl⟩

/-! ## Dominators and paths -/

/-- The blocks on a path from a reachable block are reachable. -/
theorem route_mem (h : f.Analysed) (hr : Route f.graph.Arrow a b r) (ha : a ∈ f.reachable) :
    ∀ x ∈ r, x ∈ f.reachable :=
  hr.forall_mem (fun _ _ ha hab => h.next_mem ha (h.arrow_iff.mp hab)) ha

theorem last_mem (h : f.Analysed) (hr : Route f.graph.Arrow a b r) (ha : a ∈ f.reachable) :
    b ∈ f.reachable :=
  h.route_mem hr ha b hr.mem_last

/-- A block that goes on is reached from the entry. -/
theorem exists_route (h : f.Analysed) (hx : x ∈ f.reachable) (hgoes : x ≠ f.exit) :
    ∃ r, Route f.graph.Arrow 0 x r :=
  h.reachable_induction (P := fun x => ∃ r, Route f.graph.Arrow 0 x r) ⟨_, .stay 0⟩
    (fun _ _ ⟨_, hr⟩ _ hx => ⟨_, hr.concat (h.arrow_iff.mpr hx)⟩) hx hgoes

theorem lowering_dominatorStep (h : f.Analysed) :
    Graph.Lowering f.graph.size (Graph.dominatorStep f.graph f.reachable f.preds)
      (Graph.dominatorStart f.graph f.reachable) where
  size_start := by simp [Graph.dominatorStart, Graph.tableOf]
  size_step _ := by simp [Graph.dominatorStep, Graph.tableOf]
  mono := Graph.dominatorStep_mono
  first := Graph.dominatorStep_start
  bound i hi j hj := by
    unfold Graph.dominatorStart at hj
    rw [Graph.entryOf_tableOf, if_pos hi] at hj
    split_ifs at hj with hzero hreach
    · rw [BlockSet.mem_single.mp hj, ← hzero]
      exact hi
    · exact h.lt_size hj
    · exact absurd hj (BlockSet.not_mem_empty j)

/-- Nothing changes the dominators. -/
theorem dominatorStep_dominators (h : f.Analysed) :
    Graph.dominatorStep f.graph f.reachable f.preds f.dominators = f.dominators := by
  rw [h.dominators_eq, Graph.dominators_eq]
  exact h.lowering_dominatorStep.fixed

/-- What dominates the end of a path without lying on it dominates the start. -/
theorem dominator_of_not_mem (h : f.Analysed) (hr : Route f.graph.Arrow a n r)
    (ha : a ∈ f.reachable) (hb : b ∈ Graph.entryOf f.dominators n) (hnot : b ∉ r) :
    b ∈ Graph.entryOf f.dominators a := by
  induction hr with
  | stay => exact hb
  | @step a c n r hac hr ih =>
    have hnext := h.arrow_iff.mp hac
    have hc := h.next_mem ha hnext
    have hne : b ≠ c := fun heq => hnot (List.mem_cons_of_mem _ (heq ▸ hr.mem_first))
    have hdom := ih hc hb fun hbr => hnot (List.mem_cons_of_mem _ hbr)
    have hzero : c ≠ 0 := by
      rintro rfl
      exact hne (h.dominators_zero hdom)
    rw [← h.dominatorStep_dominators, Graph.mem_dominatorStep (h.lt_size hc) hzero hc] at hdom
    obtain ⟨-, -, hpreds⟩ := hdom.resolve_left hne
    exact hpreds a (h.mem_preds_of_next ha hnext) ha

/-- **A dominator** lies on every path from the entry. -/
theorem mem_route_of_dominator (h : f.Analysed) (hr : Route f.graph.Arrow 0 n r)
    (hb : b ∈ Graph.entryOf f.dominators n) : b ∈ r := by
  by_contra hnot
  have hzero := h.dominators_zero (h.dominator_of_not_mem hr h.zero_mem hb hnot)
  exact hnot (hzero ▸ hr.mem_first)

/-- **What lies on every path** from the entry is a dominator. -/
theorem dominator_of_routes (h : f.Analysed) (hn : ∃ r, Route f.graph.Arrow 0 n r)
    (hall : ∀ r, Route f.graph.Arrow 0 n r → b ∈ r) : b ∈ Graph.entryOf f.dominators n := by
  have hreach {n : Nat} (hn : ∃ r, Route f.graph.Arrow 0 n r)
      (hall : ∀ r, Route f.graph.Arrow 0 n r → b ∈ r) : n ∈ f.reachable ∧ b ∈ f.reachable := by
    obtain ⟨r, hr⟩ := hn
    exact ⟨h.last_mem hr h.zero_mem, h.route_mem hr h.zero_mem b (hall r hr)⟩
  have hzero (hall : ∀ r, Route f.graph.Arrow 0 0 r → b ∈ r) :
      b ∈ Graph.entryOf (Graph.dominatorStart f.graph f.reachable) 0 := by
    unfold Graph.dominatorStart
    rw [Graph.entryOf_tableOf, if_pos h.proper.size_pos, if_pos rfl, BlockSet.mem_single]
    exact List.mem_singleton.mp (hall _ (.stay 0))
  rw [h.dominators_eq, Graph.dominators_eq]
  -- A block that all paths pass is in the first table, and no pass takes it away.
  refine Graph.greatest_induction (P := fun t => ∀ n, (∃ r, Route f.graph.Arrow 0 n r) →
    (∀ r, Route f.graph.Arrow 0 n r → b ∈ r) → b ∈ Graph.entryOf t n) ?_ ?_ n hn hall
  · intro n hn hall
    by_cases hn0 : n = 0
    · subst hn0
      exact hzero hall
    · obtain ⟨hnreach, hbreach⟩ := hreach hn hall
      unfold Graph.dominatorStart
      rwa [Graph.entryOf_tableOf, if_pos (h.lt_size hnreach), if_neg hn0, if_pos hnreach]
  · intro t ht n hn hall
    by_cases hn0 : n = 0
    · subst hn0
      rw [Graph.entryOf_dominatorStep fun hstep => hstep.2.1 rfl]
      exact hzero hall
    · obtain ⟨hnreach, hbreach⟩ := hreach hn hall
      rw [Graph.mem_dominatorStep (h.lt_size hnreach) hn0 hnreach]
      by_cases hbn : b = n
      · exact .inl hbn
      · refine .inr ⟨?_, hbreach, fun p hp hpreach => ?_⟩
        · obtain ⟨r, hr⟩ := hn
          obtain ⟨p, r', hr', hpn⟩ := hr.last_step.resolve_left (Ne.symm hn0)
          have hp := h.last_mem hr' h.zero_mem
          exact ⟨p, h.mem_preds_of_next hp (h.arrow_iff.mp hpn), hp⟩
        · have hnext := (h.mem_preds.mp hp).2.2
          have hgoes : p ≠ f.exit := by
            rintro rfl
            have hexit : f.ending f.exit = .exit := h.proper.ending_exit
            rw [hexit] at hnext
            cases hnext
          refine ht p (h.exists_route hpreach hgoes) fun r hr => ?_
          have hmem := hall _ (hr.concat (h.arrow_iff.mpr hnext))
          exact (List.mem_append.mp hmem).resolve_right fun hb => hbn (List.mem_singleton.mp hb)

/-- **The dominators are found in place**: the sets of the reachable blocks but the entry are
lowered one after another, over and over, until nothing changes. -/
theorem rests_dominators (h : f.Analysed) : ∃ k ≤ f.graph.size * f.graph.size,
    Graph.Rests (Graph.sweep (Graph.dominatorStep f.graph f.reachable f.preds)
        (f.reachable.toList.filter (· ≠ 0))) k
      (Graph.dominatorStart f.graph f.reachable) f.dominators := by
  rw [h.dominators_eq, Graph.dominators_eq]
  refine h.lowering_dominatorStep.rests_sweep fun i _ horder t => ?_
  refine Graph.entryOf_dominatorStep fun hstep => horder ?_
  rw [List.mem_filter, BlockSet.mem_toList, decide_eq_true_eq]
  exact ⟨hstep.2.2, hstep.2.1⟩

end Analysed

/-- **Dominators.** A function that was decoded to its end has a graph, whether the length of its
code is given or not. The dominators of a block that a path along the edges reaches from the entry
are exactly the blocks that lie on all such paths. They are found by sweeps over the reachable
blocks but the entry, each set replaced in place, and no more sweeps change anything than the square
of the count of blocks. -/
theorem dominators_exact {d : Dialect} (hd : d.Registered) {payload : List UInt8} {fn : Function}
    (hfn : fn ∈ (Script.decode d payload).functions) (hcomplete : fn.complete)
    (length : Option Nat) (hlength : ∀ n ∈ length, n = fn.codeLength) :
    ∃ f, build fn.instructions length = .ok f ∧
      (∀ n, (∃ r, Route f.graph.Arrow 0 n r) → ∀ b,
        b ∈ Graph.entryOf f.dominators n ↔ ∀ r, Route f.graph.Arrow 0 n r → b ∈ r) ∧
      ∃ k ≤ f.graph.size * f.graph.size,
        Graph.Rests (Graph.sweep (Graph.dominatorStep f.graph f.reachable f.preds)
            (f.reachable.toList.filter (· ≠ 0))) k
          (Graph.dominatorStart f.graph f.reachable) f.dominators := by
  obtain ⟨f, hf⟩ := exists_build_of_complete hd hfn hcomplete hlength
  have h := analysed_of_build hf
  refine ⟨f, hf, fun n hn b => ⟨fun hb r hr => h.mem_route_of_dominator hr hb, fun hall => ?_⟩,
    h.rests_dominators⟩
  exact h.dominator_of_routes hn hall

/-- The iteration with a conditional in its body: the entry lies on every path to the last block. -/
theorem dominators_exact_iteration :
    ∃ fn ∈ (Script.decode Registry.oldest [1, 0, 0, 0, 0, 0, 0, 0, 0, 0, 0, 4, 4, 0, 0, 0, 0, 21, 0,
        0, 0, 2, 0, 42, 1, 2, 21, 0, 2, 3, 41, 16, 0, 2, 2, 3, 3, 43, 1, 2, 7, 0]).functions,
      fn.complete ∧ fn.instructions.length = 7 ∧
      ∃ f, build fn.instructions (some fn.codeLength) = .ok f ∧
        ∀ n, (∃ r, Route f.graph.Arrow 0 n r) → ∀ b,
          b ∈ Graph.entryOf f.dominators n ↔ ∀ r, Route f.graph.Arrow 0 n r → b ∈ r := by
  have hfound : ((Script.decode Registry.oldest [1, 0, 0, 0, 0, 0, 0, 0, 0, 0, 0, 4, 4, 0, 0, 0, 0,
      21, 0, 0, 0, 2, 0, 42, 1, 2, 21, 0, 2, 3, 41, 16, 0, 2, 2, 3, 3, 43, 1, 2, 7, 0]).functions.any
      fun f => f.complete && f.instructions.length == 7) = true := by
    decide +kernel
  obtain ⟨fn, hfn, hfound⟩ := List.any_eq_true.mp hfound
  obtain ⟨hcomplete, hseven⟩ := Bool.and_eq_true_iff.mp hfound
  obtain ⟨f, hf, hexact, -⟩ := dominators_exact (Dialect.registered_of_mem Registry.oldest_mem) hfn
    hcomplete (some fn.codeLength) fun n hn => (Option.some.inj hn).symm
  exact ⟨fn, hfn, hcomplete, eq_of_beq hseven, f, hf, hexact⟩

end Flow

end Unscript
