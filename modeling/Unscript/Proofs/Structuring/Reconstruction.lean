import Unscript.Proofs.Flow.Building
import Unscript.Proofs.Registry.Concrete
import Unscript.Proofs.Script.Instructions
import Unscript.Proofs.Script.Reencoding
import Unscript.Proofs.Structuring.Coverage

/-!
# Trees of decoded functions

A function that was decoded to its end and uses legal operations only has a graph, no part of the
walk over it fails, and its blocks hold its instructions. It has a tree that holds every instruction
once, unless an iteration of one block was reached past the block that begins it: such a block is
kept as raw code first and becomes the latch of the iteration afterwards.

Results:
* `Structuring.answers_of_build`: every failure of the walk is reported.
* `Structuring.fit_of_build`: no part of the walk fails.
* `Structured.reported_of_error`: functions that cannot be structured are reported.
* `Structuring.blockOfOffset_eq`: the block that an error about an instruction names holds it.
* `Structured.leaves_perm_or_twice`: a function has a tree that holds every instruction once, or an
  instruction of a sidestepped iteration is found twice.
-/

namespace Unscript

namespace Structuring

variable {d : Dialect} {options : StructureOptions} {is : List Instruction} {length : Option Nat}
  {f : Flow}

/-! ## Graphs of instructions -/

/-- An analysed graph is cut from the stream of its instructions. -/
theorem exists_cut_of_build (h : Flow.build is length = .ok f) :
    ∃ starts, Graph.Cut (.ofInstructions is length) starts f.graph :=
  Graph.cut_of_ofStream (Flow.graph_of_build h).1

/-- The blocks of a graph hold the instructions that it was built from. -/
theorem divides_of_build (h : Flow.build is length = .ok f)
    (hoffsets : (is.map (·.offset)).Nodup) : Divides ⟨d, f, options⟩ := by
  obtain ⟨starts, hcut⟩ := exists_cut_of_build h
  refine ⟨hcut.instructions_eq, fun x hx hnil => ?_, fun x hx => (hcut.block_of_exit_le hx).1, ?_⟩
  · obtain ⟨i, hlast, -⟩ := hcut.proper.last x hx
    have hnil : (f.graph.block x).instructions = [] := hnil
    rw [hnil] at hlast
    cases hlast
  · show (f.graph.instructions.map (·.offset)).Nodup
    rw [hcut.instructions]
    exact hoffsets

/-- **Every failure** of the walk over the graph of apt instructions is reported. -/
theorem answers_of_build (h : Flow.build is length = .ok f) (hapt : ∀ i ∈ is, i.Apt) :
    Plan.Answers ⟨d, f, options⟩ := by
  obtain ⟨starts, hcut⟩ := exists_cut_of_build h
  have hmem (id : Nat) (i : Instruction) (hi : i ∈ (f.block id).instructions) : i.Apt :=
    hapt i (hcut.mem_instructions hi)
  have hlast (id : Nat) (hreal : f.ending id ≠ .exit) : ∃ i,
      (f.block id).instructions.getLast? = some i ∧ i.Apt ∧
        (f.ending id).kind = i.transfer.endingKind := by
    have hid : id < f.exit := by
      by_contra hge
      exact hreal (hcut.block_of_exit_le (Nat.not_lt.mp hge)).2
    obtain ⟨i, hlast, hkind⟩ := hcut.proper.last id hid
    exact ⟨i, hlast, hmem id i (List.mem_of_getLast? hlast), hkind⟩
  refine ⟨fun id e he => Lifted.reported_of_error (hmem id) he, fun id l hl hkind => ?_,
    fun id hkind => ?_⟩
  · have hkind : (f.ending id).kind = .cond ∨ (f.ending id).kind = .iterBegin := hkind
    obtain ⟨i, hlast, hi, hsame⟩ := hlast id fun hexit => by
      rw [hexit] at hkind
      exact hkind.elim nofun nofun
    rw [hsame, ← Transfer.asks_iff] at hkind
    exact Lifted.value_isSome hlast hi hkind hl
  · have hkind : (f.ending id).kind = .iterBegin := hkind
    obtain ⟨i, hlast, hi, hsame⟩ := hlast id fun hexit => by
      rw [hexit] at hkind
      cases hkind
    rw [hsame, Transfer.endingKind_eq_iterBegin] at hkind
    have hslots := hi.slots hkind
    obtain ⟨iterator, hiterator⟩ := Option.isSome_iff_exists.mp
      (Instruction.operand?_isSome hi.length (Nat.lt_of_lt_of_le Nat.two_pos hslots))
    obtain ⟨element, helement⟩ := Option.isSome_iff_exists.mp
      (Instruction.operand?_isSome hi.length (Nat.lt_of_succ_le hslots))
    have hlast : (Plan.instructions ⟨d, f, options⟩ id).getLast? = some i := hlast
    unfold Construct.iteratorSlots?
    rw [hlast]
    simp [hiterator, helement]

/-- **No part of the walk fails** over the graph of sound instructions. -/
theorem fit_of_build (h : Flow.build is length = .ok f) (hsound : ∀ i ∈ is, i.Sound d)
    (hsteps : options.maxSteps = none) : Plan.Fit ⟨d, f, options⟩ := by
  refine ⟨answers_of_build h fun i hi => (hsound i hi).toApt, hsteps, fun id e he => ?_⟩
  obtain ⟨starts, hcut⟩ := exists_cut_of_build h
  have hmem (i : Instruction) (hi : i ∈ (f.block id).instructions) : i.Sound d :=
    hsound i (hcut.mem_instructions hi)
  obtain ⟨i, -, rfl⟩ := Lifted.underflow_of_error hmem he
  exact ⟨i, id, rfl⟩

/-- **Where an instruction stands.** The block that is named for the offset of an instruction is the
one that holds it. -/
theorem blockOfOffset_eq (h : Flow.build is length = .ok f) (hoffsets : (is.map (·.offset)).Nodup)
    {b : Nat} {i : Instruction} (hi : i ∈ (f.block b).instructions) :
    blockOfOffset ⟨d, f, options⟩ i.offset = b := by
  obtain ⟨starts, hcut⟩ := exists_cut_of_build h
  obtain ⟨k, hk, hblocks⟩ := hcut.exists_index hi
  have hinstructions : f.graph.instructions = is := hcut.instructions
  have hfound := Graph.find?_offset hoffsets hk
  unfold blockOfOffset
  dsimp only
  rw [hinstructions, hfound]
  exact congrArg (Option.getD · 0) (Graph.getLast?_filter_range (hcut.lt_exit hi) fun id hid =>
    decide_eq_true_iff.trans (hblocks id hid))

/-! ## Functions -/

/-- **The outcome of structuring** sound instructions at different offsets, whose graph is built. -/
theorem outcome_of_build (options : StructureOptions) (h : Flow.build is length = .ok f)
    (hoffsets : (is.map (·.offset)).Nodup) (hsound : ∀ i ∈ is, i.Sound d)
    (hsteps : options.maxSteps = none) :
    (∃ s, (Structured.ofPlan ⟨d, f, options⟩).value = .ok s ∧
        ((Node.leaves s.body).flatMap Leaf.instructions).Perm is) ∨
      ∃ b i, f.Sidestepped b ∧ i ∈ (f.block b).instructions ∧
        (Structured.ofPlan ⟨d, f, options⟩).value = .error (.twice i b) := by
  have hinstructions : f.graph.instructions = is := by
    obtain ⟨starts, hcut⟩ := exists_cut_of_build h
    exact hcut.instructions
  obtain ⟨w, ⟨nodes, hrun, hperm⟩ | ⟨i, b, hrun, hside, hi⟩⟩ := function_outcome
    (p := ⟨d, f, options⟩) (Flow.analysed_of_build h) (fit_of_build h hsound hsteps)
    (divides_of_build h hoffsets)
  · have hrun : (function ⟨d, f, options⟩).run {} = (.ok nodes, w) := hrun
    refine .inl ⟨Structured.ofWalk f nodes w, ?_, hinstructions ▸ hperm⟩
    unfold Structured.ofPlan
    rw [hrun]
  · have hrun : (function ⟨d, f, options⟩).run {} = (.error (.twice i _), w) := hrun
    rw [blockOfOffset_eq h hoffsets hi] at hrun
    refine .inr ⟨b, i, hside, hi, ?_⟩
    unfold Structured.ofPlan
    rw [hrun]

/-- An instruction that stands in two leaves or in none is reported. -/
theorem reported_of_checkCoverage {p : Plan} {nodes : List Node} {w w' : Walk} {e : StructureFault}
    (h : (checkCoverage p nodes).run.run w = (.error e, w')) : e.diagnostic?.isSome := by
  unfold checkCoverage at h
  dsimp only at h
  split at h
  · cases h
    rfl
  · split at h
    · cases h
      rfl
    · cases h

/-- **Every failure** of structuring apt instructions is reported. -/
theorem reported_of_build (h : Flow.build is length = .ok f) (hapt : ∀ i ∈ is, i.Apt)
    {e : StructureFault} {w w' : Walk} (hw : Holds ⟨d, f, options⟩ .empty 0 w)
    (he : (function ⟨d, f, options⟩).run.run w = (.error e, w')) : e.diagnostic?.isSome := by
  rw [function_eq, Outcome.run_bind] at he
  have htree := does_tree (p := ⟨d, f, options⟩) (Flow.analysed_of_build h) w hw
  cases hrun : (tree ⟨d, f, options⟩).run.run w with
  | mk result w₁ =>
    rw [hrun] at he htree
    cases result with
    | error e' =>
      cases he
      exact htree.reported (answers_of_build h hapt)
    | ok nodes =>
      dsimp only at he
      rw [Outcome.run_bind] at he
      cases hcheck : (checkCoverage ⟨d, f, options⟩ nodes).run.run w₁ with
      | mk result w₂ =>
        rw [hcheck] at he
        cases result with
        | error e' =>
          cases he
          exact reported_of_checkCoverage hcheck
        | ok _ => cases he

end Structuring

namespace Structured

open Structuring

/-- **Functions that cannot be structured** are reported, however far they were decoded and whatever
the options. -/
theorem reported_of_error {d : Dialect} (hd : d.Regular) {payload : List UInt8} {bounds : Bounds}
    {f : Function} (hf : f ∈ (Script.decode d payload bounds).functions) {options : StructureOptions}
    {length : Option Nat} {e : StructureFault}
    (he : (ofInstructions d options f.instructions length).value = .error e) :
    e.diagnostic?.isSome := by
  have hapt (i : Instruction) (hi : i ∈ f.instructions) : i.Apt := by
    obtain ⟨locals, pool, hconforms⟩ := Script.conforms_of_mem hf hi
    exact hconforms.apt hd
  unfold ofInstructions at he
  split at he
  · cases he
  cases hbuild : Flow.build f.instructions length with
  | error g =>
    rw [hbuild] at he
    cases he
    unfold Flow.build at hbuild
    cases hgraph : Graph.build f.instructions length with
    | error g' =>
      rw [hgraph] at hbuild
      cases hbuild
      refine Graph.faults_build (fun i hi haims => ?_) length _ hgraph
      exact Instruction.exists_target? (hapt i hi).length ((hapt i hi).target haims)
    | ok g' =>
      rw [hgraph] at hbuild
      cases hbuild
  | ok flow =>
    rw [hbuild] at he
    change (ofPlan ⟨d, flow, options⟩).value = _ at he
    unfold ofPlan at he
    cases hrun : (function ⟨d, flow, options⟩).run {} with
    | mk result w =>
      rw [hrun] at he
      cases result with
      | error e' =>
        cases he
        exact reported_of_build hbuild hapt (holds_start _) hrun
      | ok nodes => cases he

/-- **Trees hold every instruction once.** A function that was decoded to its end and uses legal
operations only has a tree whose leaves hold its instructions, each of them once, unless one of its
iterations of a single block is entered past the block that begins it. If there is no tree, it is
because an instruction of such an iteration is found twice. -/
theorem leaves_perm_or_twice {d : Dialect} (hd : d.Registered) {payload : List UInt8} {f : Function}
    (hf : f ∈ (Script.decode d payload).functions) (hcomplete : f.complete)
    (hlegal : ∀ i ∈ f.instructions, d.isLegal i.mnemonic) (length : Option Nat)
    (hlength : ∀ n ∈ length, n = f.codeLength) :
    (∃ s, (ofInstructions d {} f.instructions length).value = .ok s ∧
        ((Node.leaves s.body).flatMap Leaf.instructions).Perm f.instructions) ∨
      ∃ flow, Flow.build f.instructions length = .ok flow ∧
        ∃ b i, flow.Sidestepped b ∧ i ∈ (flow.block b).instructions ∧
          (ofInstructions d {} f.instructions length).value = .error (.twice i b) := by
  have hdecoded := Script.decoded_of_mem hd hf hcomplete
  have hsound (i : Instruction) (hi : i ∈ f.instructions) : i.Sound d :=
    (hdecoded.conforms i hi).sound hd.regular (hlegal i hi)
  unfold ofInstructions
  split
  · rename_i hempty
    rw [List.isEmpty_iff.mp hempty]
    exact .inl ⟨_, rfl, .nil⟩
  · obtain ⟨g, hg⟩ := hdecoded.exists_build hd.regular hlength
    have hbuild : Flow.build f.instructions length = .ok (Flow.ofGraph g) := by
      unfold Flow.build
      rw [hg]
      rfl
    rw [hbuild]
    rcases outcome_of_build {} hbuild hdecoded.tiles.nodup_offset hsound rfl with
      htree | ⟨b, i, hside, hi, herror⟩
    · exact .inl htree
    · exact .inr ⟨_, rfl, b, i, hside, hi, herror⟩

/-- The code of a function of the oldest dialect: an iteration whose only block advances it. -/
def loneAdvance : List UInt8 :=
  [1, 0, 0, 0, 0, 0, 0, 0, 0, 0, 0, 4, 4, 0, 0, 0, 0, 12, 0, 0, 0, 2, 0, 42, 1, 2, 12, 0, 43, 1, 2,
    7, 0]

/-- An iteration of one block that is entered where it is begun. -/
theorem leaves_perm_or_twice_loneAdvance :
    ∃ f ∈ (Script.decode Registry.oldest loneAdvance).functions, f.complete ∧
      (∀ i ∈ f.instructions, Registry.oldest.isLegal i.mnemonic) ∧
      f.instructions.length = 3 ∧
      ∃ s, (ofInstructions Registry.oldest {} f.instructions (some f.codeLength)).value = .ok s ∧
        ((Node.leaves s.body).flatMap Leaf.instructions).Perm f.instructions := by
  have hfound : ((Script.decode Registry.oldest loneAdvance).functions.any fun f =>
      f.complete && f.instructions.all (fun i => Registry.oldest.isLegal i.mnemonic) &&
        f.instructions.length == 3 && (ofInstructions Registry.oldest {} f.instructions
          (some f.codeLength)).value.toOption.isSome) = true := by
    decide +kernel
  obtain ⟨f, hf, hfound⟩ := List.any_eq_true.mp hfound
  simp only [Bool.and_eq_true, List.all_eq_true, beq_iff_eq] at hfound
  obtain ⟨⟨⟨hcomplete, hlegal⟩, hthree⟩, htree⟩ := hfound
  refine ⟨f, hf, hcomplete, hlegal, hthree, ?_⟩
  have hlength : ∀ n ∈ some f.codeLength, n = f.codeLength := fun n hn => (Option.some.inj hn).symm
  rcases leaves_perm_or_twice (Dialect.registered_of_mem Registry.oldest_mem) hf hcomplete hlegal
    (some f.codeLength) hlength with hperm | ⟨_, _, b, i, _, _, herror⟩
  · exact hperm
  · rw [herror] at htree
    cases htree

/-- The code of a function of the oldest dialect: a jump enters the only block of an iteration past
the block that begins it. -/
def sideEntry : List UInt8 :=
  [1, 0, 0, 0, 0, 0, 0, 0, 0, 0, 0, 4, 4, 0, 0, 0, 0, 17, 0, 0, 0, 2, 3, 40, 12, 0, 2, 0, 42, 1, 2,
    17, 0, 43, 1, 2, 12, 0]

/-- Not every function with legal operations only has a tree that holds its instructions. -/
theorem not_forall_leaves_perm :
    ¬ ∀ d ∈ Registry.standard.dialects, ∀ payload, ∀ f ∈ (Script.decode d payload).functions,
      f.complete → (∀ i ∈ f.instructions, d.isLegal i.mnemonic) →
      ∃ s, (ofInstructions d {} f.instructions (some f.codeLength)).value = .ok s ∧
        ((Node.leaves s.body).flatMap Leaf.instructions).Perm f.instructions := by
  intro h
  have hfound : ((Script.decode Registry.oldest sideEntry).functions.any fun f =>
      f.complete && f.instructions.all (fun i => Registry.oldest.isLegal i.mnemonic) &&
        (ofInstructions Registry.oldest {} f.instructions
          (some f.codeLength)).value.toOption.isNone) = true := by
    decide +kernel
  obtain ⟨f, hf, hfound⟩ := List.any_eq_true.mp hfound
  simp only [Bool.and_eq_true, List.all_eq_true] at hfound
  obtain ⟨⟨hcomplete, hlegal⟩, hnone⟩ := hfound
  obtain ⟨s, hs, -⟩ := h Registry.oldest Registry.oldest_mem sideEntry f hf hcomplete hlegal
  rw [hs] at hnone
  cases hnone

end Structured

end Unscript
