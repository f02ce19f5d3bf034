import Unscript.Proofs.Structuring.Coverage

/-!
# Straight code

Code without jumps that returns at its end is one block. Its tree is that block and the return.

* `Graph.straight`: the graph of such code.

Results:
* `Graph.build_straight`: it is the graph that is built.
* `Structuring.function_straight`: the walk over it.
* `Structured.ofInstructions_straight`: the tree of straight code.
-/

namespace Unscript

/-- Code without jumps that returns at its end, and only there. -/
structure Straight (init : List Instruction) (last : Instruction) : Prop where
  next : ∀ i ∈ init, i.transfer = .next
  ret : last.transfer = .ret
  plain : last.target? = none
  offsets : ((init ++ [last]).map (·.offset)).Nodup

variable {d : Dialect} {options : StructureOptions} {init is : List Instruction}
  {last : Instruction} {l : Lifted}

/-! ## The graph -/

namespace Graph

/-- One block that returns. -/
def straight (is : List Instruction) : Graph where
  instructions := is
  blocks := #[⟨0, is, .ret 1⟩, ⟨is.length, [], .exit⟩]
  truncated := false

/-- Nothing jumps in straight code. -/
theorem destinations_straight (h : Straight init last) (length : Option Nat) :
    (Stream.ofInstructions (init ++ [last]) length).destinations = .ok [] := by
  have hnone : (init ++ [last]).filterMap (fun i =>
      if i.isBranch then i.target?.map (i, ·) else none) = [] := by
    refine List.filterMap_eq_nil_iff.mpr fun i hi => ?_
    rcases List.mem_append.mp hi with hi | hi
    · have hbranch : i.isBranch = false := by
        unfold Instruction.isBranch
        rw [h.next i hi]
        rfl
      rw [hbranch]
      rfl
    · rw [List.mem_singleton.mp hi, h.plain]
      exact ite_self _
  unfold Stream.destinations Stream.ofInstructions
  rw [hnone]
  rfl

/-- Only the first instruction of straight code starts a block. -/
theorem starts_straight (h : Straight init last) (length : Option Nat) :
    (Stream.ofInstructions (init ++ [last]) length).starts [] = [0] := by
  have hlater (k : Nat) (hk : k < init.length) :
      (Stream.ofInstructions (init ++ [last]) length).isStart [] (k + 1) = false := by
    have hbefore : (init ++ [last])[k]? = some init[k] := by
      rw [List.getElem?_append_left hk, List.getElem?_eq_getElem hk]
    unfold Stream.isStart Stream.ofInstructions
    dsimp only
    rw [Nat.add_sub_cancel, hbefore]
    dsimp only
    unfold Instruction.isBranch
    rw [h.next _ (List.getElem_mem hk)]
    rfl
  unfold Stream.starts
  have hlength : (Stream.ofInstructions (init ++ [last]) length).instructions.length =
      init.length + 1 := by
    unfold Stream.ofInstructions
    rw [List.length_append]
    rfl
  rw [hlength, List.range_succ_eq_map, List.filter_cons_of_pos rfl, List.filter_map,
    List.filter_eq_nil_iff.mpr]
  · rfl
  · intro k hk
    exact Bool.eq_false_iff.mp (hlater k (List.mem_range.mp hk))

/-- **Straight code** is one block. -/
theorem build_straight (h : Straight init last) (length : Option Nat) :
    build (init ++ [last]) length = .ok (straight (init ++ [last])) := by
  have hslice : (Stream.ofInstructions (init ++ [last]) length).slice [0] 0 0 =
      init ++ [last] := by
    show ((init ++ [last]).drop 0).take ((init ++ [last]).length - 0) = _
    rw [List.drop_zero, Nat.sub_zero, List.take_length]
  have hblock : (Stream.ofInstructions (init ++ [last]) length).blockAt [0] 0 0 =
      .ok ⟨0, init ++ [last], .ret 1⟩ := by
    unfold Stream.blockAt
    dsimp only
    rw [hslice, List.getLast?_concat]
    dsimp only
    unfold Stream.endingOf
    rw [h.ret]
    rfl
  unfold build ofStream
  refine Outcome.bind_eq_ok.mpr ⟨[], destinations_straight h length, ?_⟩
  rw [starts_straight h]
  refine Outcome.bind_eq_ok.mpr ⟨[⟨0, init ++ [last], .ret 1⟩], ?_, rfl⟩
  show [(0, 0)].mapM _ = _
  rw [List.mapM_cons]
  exact Outcome.bind_eq_ok.mpr ⟨_, hblock, rfl⟩

/-- One block has no loops. -/
theorem loops_straight (is : List Instruction) : (Flow.ofGraph (straight is)).loops = [] := by
  cbv

end Graph

/-! ## The walk -/

namespace Structuring

/-- The nodes of straight code. -/
def straightNodes (is : List Instruction) (l : Lifted) : List Node :=
  [.block ⟨0, is, l.statements⟩, .ret l.value false]

/-- What the walk over straight code knows in the end. -/
def straightWalk (l : Lifted) : Walk where
  visited := BlockSet.empty.insert 0
  begun := [0]
  lifted := [(0, l)]
  notes := l.notes 0

/-- A block that was not lifted before is lifted. -/
theorem lift?_run {p : Plan} {w : Walk} {id : Nat} (hnew : w.lifted.lookup id = none)
    (hlift : Lifted.ofInstructions p.dialect id (p.instructions id) = .ok l) :
    (lift? p id).run.run w = (.ok (some l),
      { w with lifted := w.lifted ++ [(id, l)], notes := w.notes ++ l.notes id }) := by
  have hattempt : (attempt p id).run.run w = (.ok (.ok l),
      { w with lifted := w.lifted ++ [(id, l)], notes := w.notes ++ l.notes id }) := by
    unfold attempt
    rw [Outcome.run_bind, Outcome.run_get]
    dsimp only
    rw [hnew]
    dsimp only
    rw [hlift]
    rfl
  unfold lift?
  rw [Outcome.run_bind, hattempt]
  rfl

/-- A step is taken while the budget lasts. -/
theorem step_run {p : Plan} {w : Walk} {id : Nat} (h : w.steps < p.budget) :
    (step p id).run.run w = (.ok (), { w with begun := id :: w.begun }) := by
  show (if p.budget < w.begun.length + 1 then throw (.budget id) else pure () :
    Structuring Unit).run.run { w with begun := id :: w.begun } = _
  have hwithin : ¬ p.budget < w.begun.length + 1 := Nat.not_lt.mpr h
  rw [if_neg hwithin]
  rfl

/-- The construct of straight code. -/
theorem build_straight (hsteps : options.maxSteps = none)
    (hlift : Lifted.ofInstructions d 0 is = .ok l) (inside : BuildBody) (r : Region) :
    (Construct.build ⟨d, Flow.ofGraph (Graph.straight is), options⟩ inside 0 r).run.run {} =
      (.ok (straightNodes is l, none), straightWalk l) := by
  set p : Plan := ⟨d, Flow.ofGraph (Graph.straight is), options⟩ with hp
  have hbudget : p.budget = 80 := by
    unfold Plan.budget
    rw [hp, hsteps]
    rfl
  have hloop : p.flow.loopAt? 0 = none := by
    unfold Flow.loopAt?
    rw [Graph.loops_straight]
    rfl
  have hvisit : (visit 0).run.run { begun := [0] } =
      (.ok (), { begun := [0], visited := BlockSet.empty.insert 0 }) := rfl
  unfold Construct.build
  rw [Outcome.run_bind, step_run (by rw [hbudget]; exact Nat.zero_lt_succ _), hloop]
  show (Construct.plain p inside 0 r).run.run { begun := [0] } = _
  unfold Construct.plain
  rw [Outcome.run_bind, hvisit]
  dsimp only
  rw [Outcome.run_bind, lift?_run (w := { begun := [0], visited := BlockSet.empty.insert 0 }) rfl hlift]
  rfl

/-- Nothing is left over. -/
theorem leftovers_straight (is : List Instruction) (l : Lifted) :
    (leftovers ⟨d, Flow.ofGraph (Graph.straight is), options⟩).run.run (straightWalk l) =
      (.ok [], straightWalk l) := by
  have hnone : ((Flow.ofGraph (Graph.straight is)).realBlocks.filter fun id =>
      !(straightWalk l).visited.contains id) = [] := by
    have hreal : (Flow.ofGraph (Graph.straight is)).realBlocks = [0] := rfl
    have hseen : (straightWalk l).visited.contains 0 = true := BlockSet.mem_insert.mpr (.inr rfl)
    rw [hreal, List.filter_cons_of_neg (by rw [hseen]; exact Bool.false_ne_true), List.filter_nil]
  unfold leftovers
  rw [Outcome.run_bind, Outcome.run_get]
  dsimp only
  rw [hnone]
  rfl

/-- The tree of straight code. -/
theorem tree_straight (hsteps : options.maxSteps = none)
    (hlift : Lifted.ofInstructions d 0 is = .ok l) :
    (tree ⟨d, Flow.ofGraph (Graph.straight is), options⟩).run.run {} =
      (.ok (straightNodes is l), straightWalk l) := by
  have honward : onward (Flow.ofGraph (Graph.straight is)) { stop := some 1 } .empty 0 =
      .builds := rfl
  have hexit : (Flow.ofGraph (Graph.straight is)).exit = 1 := rfl
  unfold tree
  rw [Outcome.run_bind]
  unfold body
  rw [Outcome.run_bind, Outcome.run_get]
  dsimp only
  rw [if_neg Bool.false_ne_true, hexit, honward]
  dsimp only
  rw [Outcome.run_bind, build_straight hsteps hlift]
  show (leftovers _ >>= fun ids => pure (straightNodes is l ++ ids)).run.run (straightWalk l) = _
  rw [Outcome.run_bind, leftovers_straight]
  rfl

/-- **The walk** over straight code that can be lifted. -/
theorem function_straight (hsteps : options.maxSteps = none)
    (hlift : Lifted.ofInstructions d 0 is = .ok l) (hoffsets : (is.map (·.offset)).Nodup) :
    (function ⟨d, Flow.ofGraph (Graph.straight is), options⟩).run.run {} =
      (.ok (straightNodes is l), straightWalk l) := by
  have hleaves : (Node.leaves (straightNodes is l)).flatMap Leaf.instructions = is := by
    show is ++ [] = is
    exact List.append_nil is
  have hcheck : (checkCoverage ⟨d, Flow.ofGraph (Graph.straight is), options⟩
      (straightNodes is l)).run.run (straightWalk l) = (.ok (), straightWalk l) := by
    refine checkCoverage_of_none _ ?_ fun i hi => ?_
    · rw [hleaves]
      exact firstRepeated?_eq_none.mpr ⟨hoffsets, nofun⟩
    · rw [hleaves]
      exact List.mem_map_of_mem hi
  rw [function_eq, Outcome.run_bind, tree_straight hsteps hlift]
  dsimp only
  rw [Outcome.run_bind, hcheck]
  rfl

end Structuring

namespace Structured

/-- **Straight code** that can be lifted has a tree. -/
theorem ofInstructions_straight (h : Straight init last) (hsteps : options.maxSteps = none)
    (hlift : Lifted.ofInstructions d 0 (init ++ [last]) = .ok l) (length : Option Nat) :
    ∃ s, (ofInstructions d options (init ++ [last]) length).value = .ok s ∧
      s.body = Structuring.straightNodes (init ++ [last]) l := by
  have hbuild : Flow.build (init ++ [last]) length =
      .ok (Flow.ofGraph (Graph.straight (init ++ [last]))) := by
    unfold Flow.build
    exact Outcome.bind_eq_ok.mpr ⟨_, Graph.build_straight h length, rfl⟩
  have hrun : (Structuring.function ⟨d, Flow.ofGraph (Graph.straight (init ++ [last])), options⟩).run
      {} = (.ok (Structuring.straightNodes (init ++ [last]) l), Structuring.straightWalk l) :=
    Structuring.function_straight hsteps hlift h.offsets
  unfold ofInstructions
  rw [if_neg (by simp), hbuild]
  dsimp only
  unfold ofPlan
  rw [hrun]
  exact ⟨_, rfl, rfl⟩

end Structured

end Unscript
