import Unscript.Proofs.Flow.Dominance
import Unscript.Proofs.Flow.Graph
import Unscript.Proofs.Flow.Reach
import Unscript.Structuring.Region

/-!
# Analysed graphs

What the analysis of a proper graph finds: the reachable blocks are closed under the edges, and
joins, loops and their exits lie among them.

* `Flow.Analysed`: the analysis of a proper graph.

Results:
* `Flow.Analysed.next_mem`: what a reachable block leads to is reachable.
* `Flow.Analysed.join?_mem`, `Flow.Analysed.loopExit?_mem`: joins and exits of loops are reachable.
-/

namespace Unscript

theorem Ending.length_successors_le (e : Ending) : e.successors.length ≤ 2 := by
  cases e <;> simp only [successors, List.length_singleton, List.length_nil] <;>
    first | omega | (split <;> simp)

theorem Ending.mem_successors_of_arms? {e : Ending} {a b x : Nat} (h : e.arms? = some (a, b)) :
    x ∈ e.successors ↔ x = a ∨ x = b := by
  have hmem : x ∈ (if a = b then [a] else [a, b]) ↔ x = a ∨ x = b := by
    split <;> simp_all
  cases e <;> cases h <;> exact hmem

theorem Ending.mem_of_arms? {e : Ending} {a b : Nat} (h : e.arms? = some (a, b)) :
    a ∈ e.successors ∧ b ∈ e.successors :=
  ⟨(Ending.mem_successors_of_arms? h).mpr (.inl rfl),
    (Ending.mem_successors_of_arms? h).mpr (.inr rfl)⟩

theorem Ending.mem_successors_of_destinations {e : Ending} {x : Nat} (h : x ∈ e.destinations) :
    x ∈ e.successors := by
  have harms {a b : Nat} (he : e.arms? = some (a, b)) (hx : x ∈ [a, b]) : x ∈ e.successors :=
    (Ending.mem_successors_of_arms? he).mpr (by simpa using hx)
  cases e with
  | cond | iterBegin | iterNext => exact harms rfl h
  | jump | fallthrough => exact h
  | ret | exit => cases h

namespace Flow

/-- The analysis of a proper graph. -/
structure Analysed (f : Flow) : Prop where
  proper : f.graph.Proper
  eq : f = Flow.ofGraph f.graph

/-- The graph of an analysed graph is the one that the instructions have. -/
theorem graph_of_build {is : List Instruction} {length : Option Nat} {f : Flow}
    (h : Flow.build is length = .ok f) :
    Graph.build is length = .ok f.graph ∧ f = Flow.ofGraph f.graph := by
  unfold Flow.build at h
  cases hg : Graph.build is length with
  | error e =>
    rw [hg] at h
    cases h
  | ok g =>
    rw [hg] at h
    cases h
    exact ⟨rfl, rfl⟩

theorem analysed_of_build {is : List Instruction} {length : Option Nat} {f : Flow}
    (h : Flow.build is length = .ok f) : f.Analysed :=
  ⟨Graph.proper_of_build (graph_of_build h).1, (graph_of_build h).2⟩

namespace Analysed

variable {f : Flow} {a b : Nat} {l : Loop}

/-! ## Reachable blocks -/

theorem size_eq (h : f.Analysed) : f.graph.size = f.exit + 1 := by
  have := h.proper.size_pos
  unfold Flow.exit Graph.exit
  omega

theorem reachable_eq (h : f.Analysed) : f.reachable = f.graph.reachable :=
  congrArg Flow.reachable h.eq

theorem ending_of_exit_lt (h : f.Analysed) (ha : f.exit < a) : f.ending a = .exit := by
  have hsize := h.size_eq
  have hout : f.graph.blocks.size ≤ a := by
    unfold Graph.size at hsize
    omega
  unfold Flow.ending Flow.block Graph.block
  rw [Array.getElem?_eq_none hout]
  rfl

/-- The blocks that a path from the entry leads to. -/
def entered (f : Flow) : BlockSet :=
  Graph.closure f.graph.successors (2 * f.graph.size + 2) .empty [0]

theorem mem_reachable (h : f.Analysed) : a ∈ f.reachable ↔ a ∈ entered f ∨ a = f.exit := by
  rw [h.reachable_eq, Graph.reachable, BlockSet.mem_insert]
  exact Iff.rfl

theorem entered_complete (h : f.Analysed) :
    0 ∈ entered f ∧ ∀ i ∈ entered f, ∀ j ∈ f.graph.successors i, j ∈ entered f := by
  have hout (i : Nat) (hi : f.graph.size ≤ i) : f.graph.successors i = [] := by
    have hexit : f.ending i = .exit := h.ending_of_exit_lt (by rw [h.size_eq] at hi; omega)
    unfold Graph.successors
    unfold Flow.ending Flow.block at hexit
    rw [hexit]
    rfl
  have hdemand : Graph.demand f.graph.successors f.graph.size .empty ≤ 2 * f.graph.size :=
    Graph.demand_le fun i => Ending.length_successors_le _
  have hfuel : [0].length + Graph.demand f.graph.successors f.graph.size .empty ≤
      2 * f.graph.size + 2 := by
    rw [List.length_singleton]
    omega
  obtain ⟨-, hwork, hnext⟩ := Graph.closure_complete hout hfuel
  exact ⟨hwork 0 (List.mem_singleton_self 0), fun i hi => hnext i hi (BlockSet.not_mem_empty i)⟩

theorem zero_mem (h : f.Analysed) : 0 ∈ f.reachable :=
  h.mem_reachable.mpr (.inl h.entered_complete.1)

theorem exit_mem (h : f.Analysed) : f.exit ∈ f.reachable :=
  h.mem_reachable.mpr (.inr rfl)

/-- What a reachable block leads to is reachable. -/
theorem next_mem (h : f.Analysed) (ha : a ∈ f.reachable) (hb : b ∈ (f.ending a).successors) :
    b ∈ f.reachable := by
  rcases h.mem_reachable.mp ha with ha | rfl
  · exact h.mem_reachable.mpr (.inl (h.entered_complete.2 a ha b hb))
  · have hexit : f.ending f.exit = .exit := h.proper.ending_exit
    rw [hexit] at hb
    cases hb

theorem le_exit (h : f.Analysed) (ha : a ∈ f.reachable) : a ≤ f.exit := by
  rcases h.mem_reachable.mp ha with ha | rfl
  · refine Graph.closure_subset (P := (· ≤ f.exit)) ?_ ?_ ?_ a ha
    · exact fun i hi => absurd hi (BlockSet.not_mem_empty i)
    · simp
    · exact fun i _ j hj => h.proper.targets i j hj
  · exact Nat.le_refl _

/-! ## Joins -/

theorem forwardPostdominators_eq (h : f.Analysed) : ∃ next, f.forwardPostdominators =
    f.graph.postdominators f.reachable next := by
  rw [h.reachable_eq]
  exact ⟨_, congrArg Flow.forwardPostdominators h.eq⟩

theorem join?_mem (h : f.Analysed) (hj : f.join? a = some b) : b ∈ f.reachable := by
  obtain ⟨next, hnext⟩ := h.forwardPostdominators_eq
  unfold Flow.join? at hj
  split at hj
  · split at hj
    · unfold Flow.immediatePostdominator? at hj
      have hmem := BlockSet.mem_toList.mp (List.mem_of_find?_eq_some hj)
      rw [hnext, BlockSet.mem_diff, BlockSet.mem_single] at hmem
      rcases Graph.postdominator_mem hmem.1 with hb | hb
      · exact hb
      · exact absurd hb hmem.2
    · cases hj
  · cases hj

/-! ## Loops -/

section LoopOf

variable {g : Graph} {reach : BlockSet} {dom : Array BlockSet} {preds : Nat → List Nat}
  {edges : List (Nat × Nat × Graph.EdgeKind)}

theorem mem_loopOf_body : b ∈ (loopOf g reach dom preds a edges).body ↔
    b = a ∨ ∃ e ∈ edges, b ∈ naturalLoop reach preds g.size a e.1 := by
  unfold loopOf
  dsimp only
  rw [BlockSet.mem_foldl_union, BlockSet.mem_single]
  simp only [List.mem_map, exists_exists_and_eq_and]

theorem mem_loopOf_exits : b ∈ (loopOf g reach dom preds a edges).exits ↔
    (∃ c ∈ (loopOf g reach dom preds a edges).body, b ∈ g.successors c) ∧
      b ∉ (loopOf g reach dom preds a edges).body := by
  unfold loopOf
  dsimp only
  rw [BlockSet.mem_diff, BlockSet.mem_ofList, List.mem_flatMap]
  simp only [BlockSet.mem_toList]

/-- The source of an edge that returns is reachable. -/
theorem mem_of_returning {e : Nat × Nat × Graph.EdgeKind} (he : e ∈ returningEdges g reach dom) :
    e.1 ∈ reach ∧ e.2.1 ∈ g.successors e.1 := by
  unfold returningEdges at he
  obtain ⟨x, -, he⟩ := List.mem_flatMap.mp he
  obtain ⟨y, hy, he⟩ := List.mem_filterMap.mp he
  have hreach {k : Graph.EdgeKind} (hk : g.edgeKind reach dom x y = k) (hne : k ≠ .unreachable) :
      x ∈ reach := by
    by_contra hx
    unfold Graph.edgeKind at hk
    rw [if_pos hx] at hk
    exact hne hk.symm
  split at he
  · rename_i hk
    cases he
    exact ⟨hreach hk (by decide), hy⟩
  · rename_i hk
    cases he
    exact ⟨hreach hk (by decide), hy⟩
  · cases he

/-- An edge to a dominator returns. -/
theorem mem_returning_of_dominator {x y : Nat} (hsize : x < g.size) (hx : x ∈ reach)
    (hy : y ∈ g.successors x) (hdom : y ∈ Graph.entryOf dom x) :
    (x, y, .back) ∈ returningEdges g reach dom := by
  have hkind : g.edgeKind reach dom x y = .back := by
    unfold Graph.edgeKind
    rw [if_neg (not_not.mpr hx), if_pos hdom]
  refine List.mem_flatMap.mpr ⟨x, List.mem_range.mpr hsize, List.mem_filterMap.mpr ⟨y, hy, ?_⟩⟩
  rw [hkind]

end LoopOf

theorem loopAt?_header (hl : f.loopAt? a = some l) : l.header = a := by
  have hheader := List.find?_some hl
  exact eq_of_beq hheader

/-- A loop is made from all the edges that return to its header. -/
theorem loop_eq_filter (h : f.Analysed) (hl : f.loopAt? a = some l) :
    let edges := (returningEdges f.graph f.reachable f.dominators).filter (·.2.1 == a)
    edges ≠ [] ∧ l = loopOf f.graph f.reachable f.dominators f.preds a edges := by
  have hloops : f.loops = loopsOf f.graph f.reachable f.dominators f.preds := by
    rw [h.eq]
    rfl
  have hmem := List.mem_of_find?_eq_some hl
  rw [hloops, loopsOf, List.mem_map] at hmem
  obtain ⟨header, hheader, rfl⟩ := hmem
  have ha : header = a := loopAt?_header hl
  subst ha
  refine ⟨?_, rfl⟩
  rw [BlockSet.mem_toList, BlockSet.mem_ofList, List.mem_map] at hheader
  obtain ⟨e, he, hte⟩ := hheader
  exact List.ne_nil_of_mem (List.mem_filter.mpr ⟨he, beq_iff_eq.mpr hte⟩)

/-- A loop is made from edges that return to its header. -/
theorem loop_eq (h : f.Analysed) (hl : f.loopAt? a = some l) : ∃ edges,
    (∀ e ∈ edges, e ∈ returningEdges f.graph f.reachable f.dominators ∧ e.2.1 = a) ∧
      edges ≠ [] ∧ l = loopOf f.graph f.reachable f.dominators f.preds a edges :=
  ⟨_, fun _ he => ⟨(List.mem_filter.mp he).1, eq_of_beq (List.mem_filter.mp he).2⟩,
    h.loop_eq_filter hl⟩

/-- The blocks of a loop are reachable. -/
theorem body_mem (h : f.Analysed) (hl : f.loopAt? a = some l) (hb : b ∈ l.body) :
    b ∈ f.reachable := by
  obtain ⟨edges, hedges, hne, rfl⟩ := h.loop_eq hl
  have ha : a ∈ f.reachable := by
    obtain ⟨e, he⟩ := List.exists_mem_of_ne_nil _ hne
    obtain ⟨he, rfl⟩ := hedges e he
    exact h.next_mem (mem_of_returning he).1 (mem_of_returning he).2
  rcases mem_loopOf_body.mp hb with rfl | ⟨e, he, hb⟩
  · exact ha
  · refine Graph.closure_subset (P := (· ∈ f.reachable)) ?_ ?_ ?_ b hb
    · intro i hi
      rwa [BlockSet.mem_single.mp hi]
    · rintro i hi
      rw [List.mem_singleton.mp hi]
      exact (mem_of_returning (hedges e he).1).1
    · intro i _ j hj
      simpa using (List.mem_filter.mp hj).2

/-- An exit of a loop is reachable. -/
theorem exits_mem (h : f.Analysed) (hl : f.loopAt? a = some l) (hb : b ∈ l.exits) :
    b ∈ f.reachable := by
  have hbody {c : Nat} (hc : c ∈ l.body) := h.body_mem hl hc
  obtain ⟨edges, -, -, rfl⟩ := h.loop_eq hl
  obtain ⟨⟨c, hc, hb⟩, -⟩ := mem_loopOf_exits.mp hb
  exact h.next_mem (hbody hc) hb

/-- The block after a loop is one of its exits. -/
theorem mem_exits_of_loopExit? (hb : f.loopExit? l = some b) : b ∈ l.exits := by
  have hexits {x : Nat} (hx : x ∈ l.exits.toList.filter (· != f.exit)) : x ∈ l.exits :=
    BlockSet.mem_toList.mp (List.mem_of_mem_filter hx)
  unfold Flow.loopExit? at hb
  rcases Option.or_eq_some_iff.mp hb with hb | ⟨-, hb⟩
  · rcases Option.or_eq_some_iff.mp hb with hb | ⟨-, hb⟩
    · exact hexits (List.mem_of_mem_filter (List.minOn?_mem hb))
    · exact hexits (List.minOn?_mem hb)
  · split at hb
    · cases hb
      assumption
    · cases hb

theorem loopExit?_mem (h : f.Analysed) (hl : f.loopAt? a = some l) (hb : f.loopExit? l = some b) :
    b ∈ f.reachable :=
  h.exits_mem hl (mem_exits_of_loopExit? hb)

end Analysed

end Flow

end Unscript
