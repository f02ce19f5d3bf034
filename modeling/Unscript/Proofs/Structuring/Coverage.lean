import Unscript.Proofs.Structuring.Visited
import Unscript.Structuring.Structured

/-!
# Coverage

The tree of a function is checked before it is returned: every instruction has to stand in one leaf.
What the walk visited and what it left over are all blocks of the function, each once but for
sidestepped iterations, so that only those can make the check fail.

* `Structuring.Whole`: nodes that hold all blocks of a function.
* `Structuring.Divides`: a function whose blocks hold its instructions.

Results:
* `Structuring.firstRepeated?_eq_none`: when no instruction is repeated.
* `Structuring.Whole.perm_of_none`: the leaves then hold every instruction once.
* `Structuring.Whole.exists_sidestepped`: a repeated instruction stands in a sidestepped iteration.
* `Structuring.function_outcome`: a function for which no part of the walk fails has a tree that
  holds every instruction once, or a sidestepped iteration is at fault.
-/

namespace Unscript

open Node (Each gather)

namespace Structuring

variable {p : Plan} {V : BlockSet} {nodes walked : List Node} {x y : Nat}

/-! ## All blocks -/

/-- Nodes that hold all blocks of a function, each once unless it is a sidestepped iteration. -/
structure Whole (p : Plan) (nodes : List Node) : Prop where
  faithful : Each (Faithful p) nodes
  mem : ∀ x < p.flow.exit, x ∈ gather Node.ownBlocks nodes
  once : ∀ x < p.flow.exit, ¬ p.flow.Sidestepped x → (gather Node.ownBlocks nodes).count x = 1

/-- The blocks that are left over are held by raw nodes. -/
theorem leftoverNodes_holds (p : Plan) (V : BlockSet) :
    Each (Faithful p) (leftoverNodes p V) ∧ gather Node.ownBlocks (leftoverNodes p V) =
      p.flow.realBlocks.filter fun id => !V.contains id := by
  unfold leftoverNodes
  induction p.flow.realBlocks.filter fun id => !V.contains id with
  | nil => exact ⟨Node.each_nil, rfl⟩
  | cons id ids ih =>
    have hraw (reason : RawReason) : Faithful p (.raw (p.rawOf id reason)) := rfl
    rw [List.map_cons, Node.gather_cons, ih.2, Node.gather_lone _ rfl]
    exact ⟨(Node.each_lone (hraw _) rfl).cons ih.1, rfl⟩

/-- What was visited and what is left over are all blocks. -/
theorem whole_walked (hf : p.flow.Analysed) (h : Walked p walked V) :
    Whole p (walked ++ leftoverNodes p V) := by
  have hkeeps := keeps_walked hf h
  obtain ⟨hleft, hids⟩ := leftoverNodes_holds p V
  have hnodup : (p.flow.realBlocks.filter fun id => !V.contains id).Nodup :=
    List.nodup_range.filter _
  have hmem (x : Nat) : (x ∈ p.flow.realBlocks.filter fun id => !V.contains id) ↔
      x < p.flow.exit ∧ x ∉ V := by
    unfold Flow.realBlocks
    rw [List.mem_filter, List.mem_range, Bool.not_eq_true', Bool.eq_false_iff]
    exact Iff.rfl
  have hvisits := hkeeps.visits.append
    (visits_of_nodup hnodup fun x hx => ((hmem x).mp hx).2)
  rw [← hids, ← Node.gather_append] at hvisits
  have hall (x : Nat) (hx : x < p.flow.exit) :
      x ∈ gather Node.ownBlocks (walked ++ leftoverNodes p V) := by
    rw [Node.gather_append, hids, List.mem_append, hmem]
    by_cases hv : x ∈ V
    · exact .inl (((hkeeps.visits.mem x).mp hv).resolve_left (BlockSet.not_mem_empty x))
    · exact .inr ⟨hx, hv⟩
  refine ⟨hkeeps.faithful.append hleft, hall, fun x hx hside => ?_⟩
  have hcount := hvisits.once x hside
  unfold occurs at hcount
  rwa [if_neg (BlockSet.not_mem_empty x), if_pos ((hvisits.mem x).mpr (.inr (hall x hx)))] at hcount

/-! ## Repeated instructions -/

theorem firstRepeated?_eq_none {seen : List Nat} {is : List Instruction} :
    firstRepeated? seen is = none ↔
      (is.map (·.offset)).Nodup ∧ ∀ i ∈ is, i.offset ∉ seen := by
  induction is generalizing seen with
  | nil => simp [firstRepeated?]
  | cons j rest ih =>
    unfold firstRepeated?
    rw [List.map_cons, List.nodup_cons, List.forall_mem_cons]
    by_cases hj : j.offset ∈ seen
    · rw [if_pos (List.contains_iff_mem.mpr hj)]
      exact ⟨nofun, fun h => absurd hj h.2.1⟩
    · rw [if_neg fun h => hj (List.contains_iff_mem.mp h), ih, List.mem_map]
      simp only [List.mem_cons, not_or]
      constructor
      · rintro ⟨hnodup, hnew⟩
        refine ⟨⟨?_, hnodup⟩, hj, fun i hi => (hnew i hi).2⟩
        rintro ⟨i, hi, heq⟩
        exact (hnew i hi).1 heq
      · rintro ⟨⟨hnot, hnodup⟩, -, hnew⟩
        exact ⟨hnodup, fun i hi => ⟨fun heq => hnot ⟨i, hi, heq⟩, hnew i hi⟩⟩

theorem mem_of_firstRepeated? {seen : List Nat} {is : List Instruction} {i : Instruction}
    (h : firstRepeated? seen is = some i) : i ∈ is := by
  induction is generalizing seen with
  | nil => cases h
  | cons j rest ih =>
    unfold firstRepeated? at h
    split at h
    · cases h
      exact List.mem_cons_self
    · exact List.mem_cons_of_mem _ (ih h)

/-- An instruction that is found repeated has its offset twice. -/
theorem two_le_count_of_firstRepeated? {seen : List Nat} {is : List Instruction} {i : Instruction}
    (h : firstRepeated? seen is = some i) (hnew : i.offset ∉ seen) :
    2 ≤ (is.map (·.offset)).count i.offset := by
  induction is generalizing seen with
  | nil => cases h
  | cons j rest ih =>
    unfold firstRepeated? at h
    split at h
    · rename_i hj
      cases h
      exact absurd (List.contains_iff_mem.mp hj) hnew
    rw [List.map_cons]
    by_cases heq : i.offset = j.offset
    · have hmem : i.offset ∈ rest.map (·.offset) := List.mem_map_of_mem (mem_of_firstRepeated? h)
      have hpos := List.count_pos_iff.mpr hmem
      rw [heq, List.count_cons_self, ← heq]
      omega
    · have hcount := ih h (by rw [List.mem_cons, not_or]; exact ⟨heq, hnew⟩)
      exact Nat.le_trans hcount List.count_le_count_cons

/-- Where the parts of a list have nothing twice, what is in one of them occurs in other parts put
together as often as that part does. -/
theorem count_flatMap_of_nodup {g : Nat → List Nat} {size o : Nat} (hy : y < size) (ho : o ∈ g y)
    (hnodup : ((List.range size).flatMap g).Nodup) (hout : ∀ x, size ≤ x → g x = [])
    (ids : List Nat) : (ids.flatMap g).count o = ids.count y := by
  obtain ⟨hone, hapart⟩ := List.nodup_flatMap.mp hnodup
  have hpart (x : Nat) : (g x).count o = if x = y then 1 else 0 := by
    split
    · rename_i hxy
      rw [hxy]
      exact List.count_eq_one_of_mem (hone y (List.mem_range.mpr hy)) ho
    · rename_i hxy
      refine List.count_eq_zero.mpr fun hx => ?_
      have hlt : x < size := by
        by_contra hge
        rw [hout x (Nat.not_lt.mp hge)] at hx
        cases hx
      have : Std.Symm (Function.onFun List.Disjoint g) := ⟨fun _ _ h => h.symm⟩
      have hdisjoint : List.Disjoint (g x) (g y) :=
        hapart.forall (List.mem_range.mpr hlt) (List.mem_range.mpr hy) hxy
      exact hdisjoint hx ho
  induction ids with
  | nil => rfl
  | cons x ids ih =>
    rw [List.flatMap_cons, List.count_append, ih, hpart, List.count_cons, Nat.add_comm]
    simp only [beq_iff_eq]

/-! ## The check -/

/-- A repeated instruction fails the check. -/
theorem checkCoverage_of_some {i : Instruction} (w : Walk)
    (h : firstRepeated? [] ((Node.leaves nodes).flatMap Leaf.instructions) = some i) :
    (checkCoverage p nodes).run.run w = (.error (.twice i (blockOfOffset p i.offset)), w) := by
  unfold checkCoverage
  dsimp only
  rw [h]
  rfl

/-- A function that was structured passed the check. -/
theorem firstRepeated?_of_function {w w' : Walk} (h : (function p).run.run w = (.ok nodes, w')) :
    firstRepeated? [] ((Node.leaves nodes).flatMap Leaf.instructions) = none := by
  rw [function_eq, Outcome.run_bind] at h
  cases hrun : (tree p).run.run w with
  | mk r w₁ =>
    rw [hrun] at h
    cases r with
    | error e => cases h
    | ok found =>
      dsimp only at h
      rw [Outcome.run_bind] at h
      cases hrepeated : firstRepeated? [] ((Node.leaves found).flatMap Leaf.instructions) with
      | some i =>
        rw [checkCoverage_of_some w₁ hrepeated] at h
        cases h
      | none =>
        cases hcheck : (checkCoverage p found).run.run w₁ with
        | mk r w₂ =>
          rw [hcheck] at h
          cases r with
          | error e => cases h
          | ok _ =>
            cases h
            exact hrepeated

/-- Nothing else does when no instruction is missing. -/
theorem checkCoverage_of_none (w : Walk)
    (h : firstRepeated? [] ((Node.leaves nodes).flatMap Leaf.instructions) = none)
    (hall : ∀ i ∈ p.flow.graph.instructions,
      i.offset ∈ ((Node.leaves nodes).flatMap Leaf.instructions).map (·.offset)) :
    (checkCoverage p nodes).run.run w = (.ok (), w) := by
  have hmissing : (p.flow.graph.instructions.zipIdx.find? fun x =>
      !(((Node.leaves nodes).flatMap Leaf.instructions).map (·.offset)).contains x.1.offset) =
        none := by
    refine List.find?_eq_none.mpr fun x hx => ?_
    rw [List.contains_iff_mem.mpr (hall x.1 (List.fst_mem_of_mem_zipIdx hx))]
    exact Bool.false_ne_true
  unfold checkCoverage
  dsimp only
  rw [h]
  dsimp only
  rw [hmissing]
  rfl

/-! ## Trees -/

/-- The blocks of a function hold its instructions, which stand at different offsets. -/
structure Divides (p : Plan) : Prop where
  blocks : (List.range p.flow.exit).flatMap p.instructions = p.flow.graph.instructions
  filled : ∀ x < p.flow.exit, p.instructions x ≠ []
  virtual : ∀ x, p.flow.exit ≤ x → p.instructions x = []
  offsets : (p.flow.graph.instructions.map (·.offset)).Nodup

theorem Divides.lt_exit (hd : Divides p) {i : Instruction} (hi : i ∈ p.instructions x) :
    x < p.flow.exit := by
  by_contra hge
  rw [hd.virtual x (Nat.not_lt.mp hge)] at hi
  cases hi

theorem Divides.mem (hd : Divides p) {i : Instruction} (hi : i ∈ p.instructions x) :
    i ∈ p.flow.graph.instructions := by
  rw [← hd.blocks]
  exact List.mem_flatMap.mpr ⟨x, List.mem_range.mpr (hd.lt_exit hi), hi⟩

namespace Whole

/-- Without repeated instructions every block stands in one leaf. -/
theorem count_eq_one (h : Whole p nodes)
    (hnone : firstRepeated? [] ((Node.leaves nodes).flatMap Leaf.instructions) = none)
    (hx : x < p.flow.exit) (hfilled : p.instructions x ≠ []) :
    (gather Node.ownBlocks nodes).count x = 1 := by
  have hpos := List.count_pos_iff.mpr (h.mem x hx)
  by_contra hne
  -- A block that stands in two leaves repeats its instructions.
  have htwo : 2 ≤ (gather Node.ownBlocks nodes).count x := by omega
  have htwice : List.Sublist [x, x] (gather Node.ownBlocks nodes) :=
    List.replicate_sublist_iff.mpr htwo
  have hnodup := (firstRepeated?_eq_none.mp hnone).1
  rw [flatMap_leaves h.faithful] at hnodup
  have hboth := hnodup.sublist ((htwice.flatMap p.instructions).map (·.offset))
  obtain ⟨i, hi⟩ := List.exists_mem_of_ne_nil _ hfilled
  rw [List.flatMap_cons, List.flatMap_cons, List.flatMap_nil, List.append_nil, List.map_append] at hboth
  exact (List.nodup_append.mp hboth).2.2 _ (List.mem_map_of_mem hi) _ (List.mem_map_of_mem hi) rfl

variable (h : Whole p nodes) (hd : Divides p)

include h hd

/-- What is at an offset of a block stands in the leaves as often as the block. -/
theorem count_offset {i : Instruction} (hx : x < p.flow.exit) (hi : i ∈ p.instructions x) :
    (((Node.leaves nodes).flatMap Leaf.instructions).map (·.offset)).count i.offset =
      (gather Node.ownBlocks nodes).count x := by
  rw [flatMap_leaves h.faithful, List.map_flatMap]
  refine count_flatMap_of_nodup hx (List.mem_map_of_mem hi) ?_ ?_ _
  · rw [← List.map_flatMap, hd.blocks]
    exact hd.offsets
  · intro y hy
    rw [hd.virtual y hy, List.map_nil]

/-- **Without repeated instructions** the leaves hold all of them once. -/
theorem perm_of_none
    (hnone : firstRepeated? [] ((Node.leaves nodes).flatMap Leaf.instructions) = none) :
    ((Node.leaves nodes).flatMap Leaf.instructions).Perm p.flow.graph.instructions := by
  have hone (x : Nat) (hx : x < p.flow.exit) := h.count_eq_one hnone hx (hd.filled x hx)
  -- Only the blocks that hold something matter.
  have hreal : (gather Node.ownBlocks nodes).flatMap p.instructions =
      ((gather Node.ownBlocks nodes).filter (· < p.flow.exit)).flatMap p.instructions := by
    induction gather Node.ownBlocks nodes with
    | nil => rfl
    | cons x ids ih =>
      by_cases hx : x < p.flow.exit
      · rw [List.filter_cons_of_pos (by exact decide_eq_true hx), List.flatMap_cons,
          List.flatMap_cons, ih]
      · rw [List.filter_cons_of_neg (by simpa using hx), List.flatMap_cons,
          hd.virtual x (Nat.not_lt.mp hx), List.nil_append, ih]
  have hperm : ((gather Node.ownBlocks nodes).filter (· < p.flow.exit)).Perm
      (List.range p.flow.exit) := by
    refine List.perm_iff_count.mpr fun x => ?_
    by_cases hx : x < p.flow.exit
    · rw [List.count_filter (by exact decide_eq_true hx), hone x hx,
        List.count_eq_one_of_mem List.nodup_range (List.mem_range.mpr hx)]
    · rw [List.count_eq_zero_of_not_mem, List.count_eq_zero_of_not_mem]
      · exact fun hmem => hx (List.mem_range.mp hmem)
      · exact fun hmem => hx (by simpa using (List.mem_filter.mp hmem).2)
  rw [flatMap_leaves h.faithful, hreal, ← hd.blocks]
  exact hperm.flatMap_right _

/-- **A repeated instruction** stands in a sidestepped iteration. -/
theorem exists_sidestepped {i : Instruction}
    (hsome : firstRepeated? [] ((Node.leaves nodes).flatMap Leaf.instructions) = some i) :
    ∃ b, p.flow.Sidestepped b ∧ i ∈ p.instructions b := by
  have hmem := mem_of_firstRepeated? hsome
  have hcount := two_le_count_of_firstRepeated? hsome List.not_mem_nil
  rw [flatMap_leaves h.faithful] at hmem
  obtain ⟨b, -, hi⟩ := List.mem_flatMap.mp hmem
  have hb := hd.lt_exit hi
  rw [h.count_offset hd hb hi] at hcount
  refine ⟨b, by_contra fun hside => ?_, hi⟩
  have := h.once b hb hside
  omega

end Whole

/-- The walk builds a tree where no part of it fails. -/
theorem exists_tree (hf : p.flow.Analysed) (hfit : p.Fit) : ∃ walked V w,
    (tree p).run.run {} = (.ok (walked ++ leftoverNodes p V), w) ∧ Walked p walked V := by
  have htree := does_tree hf {} (holds_start p)
  cases hrun : (tree p).run.run {} with
  | mk result w =>
    rw [hrun] at htree
    cases result with
    | error e => exact absurd hfit htree.unfit
    | ok nodes =>
      obtain ⟨_, _, -, walked, V, hwalked, rfl⟩ := htree
      exact ⟨walked, V, w, rfl, hwalked⟩

/-- **The outcome of structuring** a function for which no part of the walk fails. -/
theorem function_outcome (hf : p.flow.Analysed) (hfit : p.Fit) (hd : Divides p) : ∃ w,
    (∃ nodes, (function p).run.run {} = (.ok nodes, w) ∧
      ((Node.leaves nodes).flatMap Leaf.instructions).Perm p.flow.graph.instructions) ∨
    ∃ i b, (function p).run.run {} = (.error (.twice i (blockOfOffset p i.offset)), w) ∧
      p.flow.Sidestepped b ∧ i ∈ p.instructions b := by
  obtain ⟨walked, V, w, hrun, hwalked⟩ := exists_tree hf hfit
  have hwhole := whole_walked hf hwalked
  generalize walked ++ leftoverNodes p V = nodes at hrun hwhole
  refine ⟨w, ?_⟩
  rw [function_eq, Outcome.run_bind, hrun]
  dsimp only
  rw [Outcome.run_bind]
  cases hrepeated : firstRepeated? [] ((Node.leaves nodes).flatMap Leaf.instructions) with
  | none =>
    have hperm := hwhole.perm_of_none hd hrepeated
    have hall : ∀ i ∈ p.flow.graph.instructions,
        i.offset ∈ ((Node.leaves nodes).flatMap Leaf.instructions).map (·.offset) :=
      fun i hi => List.mem_map_of_mem (hperm.mem_iff.mpr hi)
    rw [checkCoverage_of_none w hrepeated hall]
    exact .inl ⟨nodes, rfl, hperm⟩
  | some i =>
    obtain ⟨b, hside, hi⟩ := hwhole.exists_sidestepped hd hrepeated
    rw [checkCoverage_of_some w hrepeated]
    exact .inr ⟨i, b, rfl, hside, hi⟩

end Structuring

end Unscript
