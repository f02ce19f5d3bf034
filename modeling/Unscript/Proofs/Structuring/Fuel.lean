import Unscript.Proofs.Structuring.Extension
import Unscript.Proofs.Structuring.Reconstruction
import Unscript.Proofs.Structuring.Steps

/-!
# Enough fuel

The loops of the walk have fuel. None of them stops for want of it: bodies take a step for every
construct, and there are at most two steps at a block; a chain of comparisons never returns to a
block, since each comparison is the only predecessor of the next; the blocks on the way out of a
region are expanded once; and a loop grows by a block at a time. So structuring ends by itself, on
the graph of every function that was decoded to its end.

* `Plan.Drains`: the loops of the walk end before their fuel does.

Results:
* `Structuring.extends_body`: bodies with more fuel.
* `Structuring.extend_add`: chains with more fuel.
* `Flow.Analysed.growOwned_add`: the blocks of a loop with more fuel.
* `Structuring.drains`: more fuel changes nothing.
* `Structured.count_begun_le_two`: structuring takes at most two steps at a block, and ends by
  itself.
-/

namespace Unscript

namespace Structuring

variable {p : Plan} {w : Walk} {id fuel : Nat}

/-- A fault for want of budget. -/
def WantsBudget (e : StructureFault) : Prop :=
  ∃ id, e = .budget id

/-! ## Bodies -/

/-- Bodies with more fuel. -/
theorem extends_body (p : Plan) {more : Nat} (hmore : fuel ≤ more) (entering : Bool) (start : Nat)
    (r : Region) :
    Extends WantsBudget (body p fuel entering start r) (body p more entering start r) := by
  induction fuel generalizing more entering start r with
  | zero => exact extends_of_lost ⟨start, rfl⟩ fun _ => rfl
  | succ fuel ih =>
    obtain ⟨more, rfl⟩ := Nat.exists_eq_add_of_le' (Nat.lt_of_lt_of_le (Nat.succ_pos fuel) hmore)
    have hbody := fun entering start r => ih (Nat.le_of_succ_le_succ hmore) entering start r
    refine .after fun w => ?_
    dsimp only
    split
    · exact extends_refl _
    · exact extends_refl _
    · refine (extends_build hbody start r).bind fun c => ?_
      split
      · exact extends_refl _
      · exact (hbody false _ r).bind fun _ => extends_refl _

/-! ## Chains -/

/-- A comparison that continues a chain holds instructions. -/
theorem lt_exit_of_canFollow (hf : p.flow.Analysed) {s : Chain.Scope} {V : BlockSet} {y : Nat}
    (h : Chain.canFollow p s V y id = true) : id < p.flow.exit := by
  unfold Chain.canFollow at h
  simp only [Bool.and_eq_true, Bool.not_eq_true', Bool.or_eq_false_iff, beq_iff_eq,
    beq_eq_false_iff_ne] at h
  obtain ⟨⟨⟨⟨⟨⟨⟨⟨-, hexit⟩, -⟩, -⟩, -⟩, hkind⟩, -⟩, -⟩, -⟩ := h
  by_contra hge
  rw [hf.ending_of_exit_lt (by omega)] at hkind
  cases hkind

/-- A comparison that was found continues the chain. -/
theorem canFollow_of_pattern? {s : Chain.Scope} {current : Nat} {pattern : Expr} {w' : Walk}
    (h : (Chain.pattern? p s current id).run.run w = (.ok (some pattern), w')) :
    Chain.canFollow p s w.visited current id = true := by
  by_contra hno
  have hrun : (Chain.pattern? p s current id).run.run w = (.ok none, w) := by
    show (if !Chain.canFollow p s w.visited current id then _ else _ : Structuring _).run.run w = _
    rw [if_pos (by simpa using hno)]
    rfl
  rw [hrun] at h
  cases h

/-- A chain with more fuel: it ends before its blocks are all blocks there are. -/
theorem extend_add (hf : p.flow.Analysed) {s : Chain.Scope} {current : Nat} {past : List Nat}
    {c : Chain} (htrail : Trail p.flow w.visited (current :: past))
    (hreal : ∀ x ∈ current :: past, x < p.flow.exit)
    (hfuel : p.flow.exit ≤ fuel + past.length) (k : Nat) :
    (Chain.extend p s (fuel + k) current c).run.run w =
      (Chain.extend p s fuel current c).run.run w := by
  induction fuel generalizing w current past c with
  | zero =>
    have hle : (current :: past).length ≤ p.flow.exit := by
      have hsub : (current :: past).Subperm (List.range p.flow.exit) :=
        htrail.nodup.subperm fun x hx => List.mem_range.mpr (hreal x hx)
      simpa using hsub.length_le
    rw [List.length_cons] at hle
    omega
  | succ fuel ih =>
    rw [Nat.add_right_comm]
    unfold Chain.extend
    dsimp only
    rw [Outcome.run_bind, Outcome.run_bind]
    cases hrun : (Chain.pattern? p s current c.fallback).run.run w with
    | mk result w' =>
      cases result with
      | error e => rfl
      | ok found =>
        dsimp only
        split
        · rename_i pattern a b harms
          have hcan := canFollow_of_pattern? hrun
          have hstill := (moves_pattern? p s current c.fallback w).1.visited
          rw [hrun] at hstill
          obtain ⟨hfresh, -, hpreds⟩ := canFollow_eq hcan
          refine ih (?_ : Trail p.flow w'.visited (c.fallback :: current :: past)) ?_ ?_
          · rw [hstill]
            exact .link hpreds hfresh htrail
          · exact List.forall_mem_cons.mpr ⟨lt_exit_of_canFollow hf hcan, hreal⟩
          · rw [List.length_cons]
            omega
        · rfl

end Structuring

/-! ## Ways out of a region -/

/-- The blocks on the way out of a region with more fuel. -/
theorem Region.closure_passage_add {f : Flow} (hf : f.Analysed) (r : Region) (visited : BlockSet)
    (arm other k : Nat) :
    Graph.closure (fun i => (r.passage f visited other i).next) (2 * f.graph.size + 2 + k) .empty
        [arm] =
      Graph.closure (fun i => (r.passage f visited other i).next) (2 * f.graph.size + 2) .empty
        [arm] := by
  have hnext (i : Nat) : (r.passage f visited other i).next = [] ∨
      (r.passage f visited other i).next = f.forwardSuccessors i := by
    unfold Region.passage
    split
    · exact .inl rfl
    split
    · exact .inl rfl
    split
    · exact .inl rfl
    split
    · exact .inl rfl
    split
    · exact .inl rfl
    split
    · exact .inl rfl
    · exact .inr rfl
  have hsub (i : Nat) : (r.passage f visited other i).next.length ≤ (f.ending i).successors.length := by
    rcases hnext i with hnil | hsome
    · rw [hnil]
      exact Nat.zero_le _
    · rw [hsome]
      exact List.length_filter_le _ _
  refine Graph.closure_add (fun i (hi : f.graph.size ≤ i) => ?_) ?_ k
  · have hle := hsub i
    rw [hf.ending_of_exit_lt (by rw [hf.size_eq] at hi; omega)] at hle
    exact List.length_eq_zero_iff.mp (Nat.le_zero.mp hle)
  · have hdemand : Graph.demand (fun i => (r.passage f visited other i).next) f.graph.size .empty ≤
        2 * f.graph.size :=
      Graph.demand_le fun i => Nat.le_trans (hsub i) (Ending.length_successors_le _)
    rw [List.length_singleton]
    omega

/-! ## Blocks of a loop -/

namespace Flow.Analysed

variable {f : Flow}

/-- How many blocks a loop may still grow by. -/
def absent (f : Flow) (owned : BlockSet) : Nat :=
  ((List.range f.exit).filter (· ∉ owned)).length

theorem absent_le (f : Flow) (owned : BlockSet) : absent f owned ≤ f.exit := by
  have hle := List.length_filter_le (fun i => decide (i ∉ owned)) (List.range f.exit)
  rwa [List.length_range] at hle

theorem lt_exit_of_joinsLoop (hf : f.Analysed) {exit : Option Nat} {owned : BlockSet} {id : Nat}
    (h : f.joinsLoop exit owned id = true) : id < f.exit := by
  unfold Flow.joinsLoop at h
  simp only [Bool.and_eq_true, bne_iff_ne] at h
  obtain ⟨⟨⟨⟨-, hne⟩, hreach⟩, -⟩, -⟩ := h
  exact Nat.lt_of_le_of_ne (hf.le_exit hreach) hne

/-- Blocks that are added are not absent any longer. -/
theorem absent_insert_lt {owned : BlockSet} {more : List Nat} {id : Nat} (hid : id ∈ more)
    (hreal : id < f.exit) (hnew : id ∉ owned) :
    absent f (more.foldl BlockSet.insert owned) < absent f owned := by
  have hfilter : (List.range f.exit).filter (· ∉ more.foldl BlockSet.insert owned) =
      ((List.range f.exit).filter (· ∉ owned)).filter (· ∉ more) := by
    rw [List.filter_filter]
    refine List.filter_congr fun i _ => ?_
    simp only [BlockSet.mem_foldl_insert, not_or, Bool.decide_and]
    exact Bool.and_comm _ _
  unfold absent
  rw [hfilter]
  refine List.length_filter_lt_length_iff_exists.mpr ⟨id, ?_, by simpa using hid⟩
  exact List.mem_filter.mpr ⟨List.mem_range.mpr hreal, by simpa using hnew⟩

/-- The blocks of a loop with more fuel: every round adds one that was absent. -/
theorem growOwned_add (hf : f.Analysed) (exit : Option Nat) {fuel : Nat} {owned : BlockSet}
    (hfuel : absent f owned < fuel) (k : Nat) :
    f.growOwned exit (fuel + k) owned = f.growOwned exit fuel owned := by
  induction fuel generalizing owned with
  | zero => exact absurd hfuel (Nat.not_lt_zero _)
  | succ fuel ih =>
    rw [Nat.add_right_comm]
    unfold Flow.growOwned
    dsimp only
    split
    · rfl
    · rename_i hmore
      obtain ⟨id, hid⟩ := List.exists_mem_of_ne_nil _ (List.isEmpty_eq_false_iff.mp
        (Bool.eq_false_of_not_eq_true hmore))
      obtain ⟨hfrontier, hjoins⟩ := List.mem_filter.mp hid
      have hnew := (BlockSet.mem_diff.mp (BlockSet.mem_toList.mp hfrontier)).2
      have hlt := absent_insert_lt hid (hf.lt_exit_of_joinsLoop hjoins) hnew
      exact ih (by omega)

end Flow.Analysed

/-! ## All loops -/

/-- The loops of the walk end before their fuel does: more fuel changes nothing. -/
structure Plan.Drains (p : Plan) : Prop where
  bodies : ∀ fuel, p.budget < fuel →
    (Structuring.body p fuel false 0 { stop := some p.flow.exit }).run.run {} =
      (Structuring.body p (p.budget + 1) false 0 { stop := some p.flow.exit }).run.run {}
  chains : ∀ s id c w fuel, id < p.flow.exit → id ∈ w.visited → p.flow.graph.size ≤ fuel →
    (Chain.extend p s fuel id c).run.run w =
      (Chain.extend p s p.flow.graph.size id c).run.run w
  departures : ∀ (r : Region) visited arm other fuel, 2 * p.flow.graph.size + 2 ≤ fuel →
    Graph.closure (fun i => (r.passage p.flow visited other i).next) fuel .empty [arm] =
      Graph.closure (fun i => (r.passage p.flow visited other i).next) (2 * p.flow.graph.size + 2)
        .empty [arm]
  owned : ∀ l exit fuel, p.flow.graph.size < fuel →
    p.flow.growOwned exit fuel l.body = p.flow.ownedBlocks l exit

namespace Structuring

variable {p : Plan}

/-- **More fuel changes nothing** where the budget covers two steps at every block. -/
theorem drains (hf : p.flow.Analysed) (hbudget : 2 * p.flow.exit ≤ p.budget) : p.Drains := by
  have hsize := hf.size_eq
  refine ⟨fun fuel hfuel => ?_, fun s id c w fuel hreal hid hfuel => ?_,
    fun r visited arm other fuel hfuel => ?_, fun l exit fuel hfuel => ?_⟩
  · rcases extends_body p (Nat.succ_le_of_lt hfuel) false 0 { stop := some p.flow.exit } {} with
      ⟨_, ⟨id, rfl⟩, herror⟩ | heq
    · have hstart : Rests p (p.budget + 1 - (p.budget + 1)) {} :=
        (rests_start p).mono (by omega)
      have hpaces := (treads_body hf hbudget (p.budget + 1)).plain 0 { stop := some p.flow.exit } {}
        hf.zero_mem hstart
      exact absurd herror (hpaces.ne_budget id)
    · exact heq.symm
  · obtain ⟨k, rfl⟩ := Nat.exists_eq_add_of_le hfuel
    refine extend_add hf (.start hid) (List.forall_mem_singleton.mpr hreal) ?_ k
    rw [List.length_nil]
    omega
  · obtain ⟨k, rfl⟩ := Nat.exists_eq_add_of_le hfuel
    exact r.closure_passage_add hf visited arm other k
  · obtain ⟨k, rfl⟩ := Nat.exists_eq_add_of_le (Nat.succ_le_of_lt hfuel)
    refine hf.growOwned_add exit ?_ k
    have hle := Flow.Analysed.absent_le p.flow l.body
    omega

/-- The default budget covers two steps at every block. -/
theorem steps_le_budget (hf : p.flow.Analysed) (hsteps : p.options.maxSteps = none) :
    2 * p.flow.exit ≤ p.budget := by
  have hsize := hf.size_eq
  unfold Plan.budget
  rw [hsteps, Option.getD_none]
  omega

/-- The tally of a function at its end, whether it has a tree or not. -/
theorem tally_function (hf : p.flow.Analysed) (hbudget : 2 * p.flow.exit ≤ p.budget) :
    Tally p ((function p).run {}).2 ∧ ∀ id, ((function p).run {}).1 ≠ .error (.budget id) := by
  have hpaces := paces_function hf hbudget
  refine ⟨?_, hpaces.ne_budget⟩
  unfold Paces at hpaces
  show Tally p ((function p).run.run {}).2
  cases hrun : (function p).run.run {} with
  | mk result w =>
    rw [hrun] at hpaces
    cases result with
    | error e => exact hpaces.2
    | ok nodes => exact hpaces

end Structuring

namespace Structured

/-- **Structuring ends by itself.** On the way through a function that was decoded to its end, at most
two constructs are begun at a block, and all of them at blocks that hold instructions; whether the
function has a tree or not, the default budget of steps is enough, and none of the loops of the walk
stops for want of fuel. -/
theorem count_begun_le_two {d : Dialect} (hd : d.Registered) {payload : List UInt8} {f : Function}
    (hf : f ∈ (Script.decode d payload).functions) (hcomplete : f.complete)
    {options : StructureOptions} (hsteps : options.maxSteps = none) (length : Option Nat)
    (hlength : ∀ n ∈ length, n = f.codeLength) :
    ∃ flow, Flow.build f.instructions length = .ok flow ∧
      (∀ id, ((Structuring.function ⟨d, flow, options⟩).run {}).2.begun.count id ≤ 2) ∧
      (∀ id ∈ ((Structuring.function ⟨d, flow, options⟩).run {}).2.begun, id < flow.exit) ∧
      (∀ id, (ofInstructions d options f.instructions length).value ≠ .error (.budget id)) ∧
      Plan.Drains ⟨d, flow, options⟩ := by
  obtain ⟨g, hg⟩ := (Script.decoded_of_mem hd hf hcomplete).exists_build hd.regular hlength
  have hbuild : Flow.build f.instructions length = .ok (Flow.ofGraph g) := by
    unfold Flow.build
    rw [hg]
    rfl
  have hanalysed := Flow.analysed_of_build hbuild
  have hbudget := Structuring.steps_le_budget (p := ⟨d, Flow.ofGraph g, options⟩) hanalysed hsteps
  obtain ⟨htally, hwant⟩ := Structuring.tally_function hanalysed hbudget
  refine ⟨Flow.ofGraph g, hbuild, htally.twice, htally.real, fun id => ?_,
    Structuring.drains hanalysed hbudget⟩
  unfold ofInstructions
  split
  · exact nofun
  · rw [hbuild]
    show (ofPlan ⟨d, Flow.ofGraph g, options⟩).value ≠ _
    have hne := hwant id
    unfold ofPlan
    cases hrun : (Structuring.function ⟨d, Flow.ofGraph g, options⟩).run {} with
    | mk result w =>
      rw [hrun] at hne
      cases result with
      | error e => exact fun heq => hne (congrArg _ (Except.error.inj heq))
      | ok nodes => exact nofun

/-- A payload of the oldest dialect: a function that goes round without an end. -/
def roundabout : List UInt8 :=
  [1, 0, 0, 0, 0, 0, 0, 0, 0, 0, 0, 1, 0, 0, 0, 0, 0, 6, 0, 0, 0, 2, 0, 45, 39, 0, 0]

/-- The header of a loop without a test takes both of its steps. -/
theorem count_begun_le_two_roundabout :
    ∃ f ∈ (Script.decode Registry.oldest roundabout).functions, f.complete ∧
      ∃ flow, Flow.build f.instructions none = .ok flow ∧
        (∀ id, ((Structuring.function ⟨Registry.oldest, flow, {}⟩).run {}).2.begun.count id ≤ 2) ∧
        (∀ id ∈ ((Structuring.function ⟨Registry.oldest, flow, {}⟩).run {}).2.begun,
          id < flow.exit) ∧
        (∀ id, (ofInstructions Registry.oldest {} f.instructions none).value ≠
          .error (.budget id)) ∧
        Plan.Drains ⟨Registry.oldest, flow, {}⟩ ∧
        ((Structuring.function ⟨Registry.oldest, flow, {}⟩).run {}).2.begun.count 0 = 2 := by
  have hfound : ((Script.decode Registry.oldest roundabout).functions.any fun f => f.complete &&
      (Flow.build f.instructions none).toOption.any fun flow =>
        ((Structuring.function ⟨Registry.oldest, flow, {}⟩).run {}).2.begun.count 0 == 2) = true := by
    decide +kernel
  obtain ⟨f, hf, hfound⟩ := List.any_eq_true.mp hfound
  obtain ⟨hcomplete, hfound⟩ := Bool.and_eq_true_iff.mp hfound
  obtain ⟨flow, hflow, htwo⟩ := (Option.any_eq_true _ _).mp hfound
  have hsteps : ({} : StructureOptions).maxSteps = none := rfl
  obtain ⟨flow', hflow', hrest⟩ := count_begun_le_two
    (Dialect.registered_of_mem Registry.oldest_mem) hf hcomplete hsteps none nofun
  rw [Outcome.toOption_eq_some.mp hflow] at hflow'
  cases hflow'
  obtain ⟨htwice, hreal, hwant, hdrains⟩ := hrest
  exact ⟨f, hf, hcomplete, flow, Outcome.toOption_eq_some.mp hflow, htwice, hreal, hwant, hdrains,
    eq_of_beq htwo⟩

end Structured

end Unscript
