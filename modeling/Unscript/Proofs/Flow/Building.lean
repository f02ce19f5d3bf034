import Unscript.Proofs.Lifting

/-!
# When a graph is built

The jumps of a function that was decoded to its end lead to instructions or to the end of its code,
so that its graph is built, whether its length is given or taken from its last instruction.

* `Graph.Stream.Linked`: a stream whose jumps have targets in it.

Results:
* `Graph.ofStream_ok`: a linked stream has a graph.
* `Graph.faults_build`: a graph that cannot be built is reported.
* `Decoded.exists_build`: decoded instructions have a graph.
-/

namespace Unscript

namespace Graph

/-- A stream whose jumps have targets: instructions of the stream or its end. -/
structure Stream.Linked (s : Stream) : Prop where
  target : ∀ i ∈ s.instructions, i.transfer.aims → ∃ t, i.target? = some t
  lands : ∀ i ∈ s.instructions, ∀ t, i.target? = some t →
    t = s.length ∨ ∃ j ∈ s.instructions, j.offset = t

/-- An instruction is found by its offset when no other has the same. -/
theorem find?_offset {is : List Instruction} {k : Nat} {i : Instruction}
    (hoffsets : (is.map (·.offset)).Nodup) (hk : is[k]? = some i) :
    (is.zipIdx.reverse.find? fun x => x.1.offset == i.offset) = some (i, k) := by
  have hmem : (i, k) ∈ is.zipIdx.reverse :=
    List.mem_reverse.mpr (List.mk_mem_zipIdx_iff_getElem?.mpr hk)
  cases hfind : is.zipIdx.reverse.find? fun x => x.1.offset == i.offset with
  | none => exact absurd (beq_self_eq_true i.offset) (List.find?_eq_none.mp hfind _ hmem)
  | some x =>
    obtain ⟨j, l⟩ := x
    have hfound := List.find?_some hfind
    have hsame : j.offset = i.offset := eq_of_beq hfound
    have hl := List.mk_mem_zipIdx_iff_getElem?.mp
      (List.mem_reverse.mp (List.mem_of_find?_eq_some hfind))
    have hlt : k < (is.map (·.offset)).length := by
      rw [List.length_map]
      exact (List.getElem?_eq_some_iff.mp hk).1
    have hkl : k = l := (List.getElem?_inj hlt hoffsets).mp (by
      rw [List.getElem?_map, List.getElem?_map, hk, hl, Option.map_some, Option.map_some, hsame])
    rw [← hkl, hk] at hl
    rw [Option.some.inj hl, hkl]

namespace Stream

variable {s : Stream} {i : Instruction}

/-- A jump to an instruction or to the end leads somewhere. -/
theorem resolve_ok {t : Nat} (h : t = s.length ∨ ∃ j ∈ s.instructions, j.offset = t) :
    ∃ d, s.resolve i t = .ok d := by
  unfold resolve
  cases hindex : s.indexOf? t with
  | some index => exact ⟨_, rfl⟩
  | none =>
    rcases h with hend | ⟨j, hj, hoffset⟩
    · exact ⟨.codeEnd, if_pos hend⟩
    · -- The instruction would have been found.
      obtain ⟨k, hk⟩ := List.mem_iff_getElem?.mp hj
      unfold indexOf? at hindex
      rw [Option.map_eq_none_iff, List.find?_eq_none] at hindex
      have hnot := hindex (j, k) (List.mem_reverse.mpr (List.mk_mem_zipIdx_iff_getElem?.mpr hk))
      exact absurd (beq_iff_eq.mpr hoffset) hnot

theorem targetBlock_ok (h : s.Linked) (starts : List Nat) (hi : i ∈ s.instructions)
    (haims : i.transfer.aims) : ∃ b, s.targetBlock starts i = .ok b := by
  obtain ⟨t, ht⟩ := h.target i hi haims
  obtain ⟨d, hd⟩ := resolve_ok (i := i) (h.lands i hi t ht)
  unfold targetBlock
  rw [ht]
  cases d with
  | instruction index => exact ⟨_, Outcome.bind_eq_ok.mpr ⟨_, hd, rfl⟩⟩
  | codeEnd => exact ⟨_, Outcome.bind_eq_ok.mpr ⟨_, hd, rfl⟩⟩
  | undecoded => exact ⟨_, Outcome.bind_eq_ok.mpr ⟨_, hd, rfl⟩⟩

theorem endingOf_ok (h : s.Linked) (starts : List Nat) (next : Nat) (hi : i ∈ s.instructions) :
    ∃ e, s.endingOf starts next i = .ok e := by
  have htarget (haims : i.transfer.aims) := targetBlock_ok h starts hi haims
  unfold endingOf
  cases htransfer : i.transfer <;> rw [htransfer] at htarget
  case next => exact ⟨_, rfl⟩
  case ret => exact ⟨_, rfl⟩
  all_goals
    obtain ⟨b, hb⟩ := htarget rfl
    exact ⟨_, Outcome.bind_eq_ok.mpr ⟨b, hb, rfl⟩⟩

theorem blockAt_ok (h : s.Linked) (starts : List Nat) (id start : Nat) :
    ∃ b, s.blockAt starts id start = .ok b := by
  unfold blockAt
  cases hlast : (s.slice starts id start).getLast? with
  | none =>
    dsimp only
    rw [hlast]
    exact ⟨_, rfl⟩
  | some i =>
    have hi : i ∈ s.instructions :=
      List.mem_of_mem_drop (List.mem_of_mem_take (List.mem_of_getLast? hlast))
    obtain ⟨e, he⟩ := endingOf_ok h starts (id + 1) hi
    dsimp only
    rw [hlast]
    exact ⟨_, Outcome.bind_eq_ok.mpr ⟨e, he, rfl⟩⟩

theorem destinations_ok (h : s.Linked) : ∃ ds, s.destinations = .ok ds := by
  refine Outcome.exists_mapM_ok fun x hx => ?_
  obtain ⟨i, hi, hx⟩ := List.mem_filterMap.mp hx
  split at hx
  · obtain ⟨t, ht, rfl⟩ := Option.map_eq_some_iff.mp hx
    exact resolve_ok (h.lands i hi t ht)
  · cases hx

end Stream

/-- **A linked stream** has a graph. -/
theorem ofStream_ok {s : Stream} (h : s.Linked) : ∃ g, ofStream s = .ok g := by
  obtain ⟨ds, hds⟩ := Stream.destinations_ok h
  have hall : ∀ x ∈ (s.starts ds).zipIdx, ∃ b, s.blockAt (s.starts ds) x.2 x.1 = .ok b :=
    fun x _ => Stream.blockAt_ok h (s.starts ds) x.2 x.1
  obtain ⟨blocks, hblocks⟩ := Outcome.exists_mapM_ok hall
  exact ⟨_, Outcome.bind_eq_ok.mpr ⟨ds, hds, Outcome.bind_eq_ok.mpr ⟨blocks, hblocks, rfl⟩⟩⟩

/-! ## Faults of building -/

namespace Stream

variable {s : Stream} {i : Instruction}

/-- Whether a fault is reported. -/
def Reported (e : GraphFault) : Prop :=
  e.diagnostic?.isSome

theorem faults_resolve (t : Nat) : Outcome.Faults Reported (s.resolve i t) := by
  unfold resolve
  split
  · exact Outcome.faults_ok _
  · split_ifs
    · exact Outcome.faults_ok _
    · exact Outcome.faults_ok _
    · exact Outcome.faults_error rfl

theorem faults_targetBlock (starts : List Nat) (h : ∃ t, i.target? = some t) :
    Outcome.Faults Reported (s.targetBlock starts i) := by
  obtain ⟨t, ht⟩ := h
  unfold targetBlock
  rw [ht]
  refine (faults_resolve t).bind fun d => ?_
  cases d <;> exact Outcome.faults_ok _

theorem faults_endingOf (starts : List Nat) (next : Nat)
    (h : i.transfer.aims → ∃ t, i.target? = some t) :
    Outcome.Faults Reported (s.endingOf starts next i) := by
  unfold endingOf
  cases htransfer : i.transfer <;> rw [htransfer] at h
  case next => exact Outcome.faults_ok _
  case ret => exact Outcome.faults_ok _
  all_goals exact (faults_targetBlock starts (h rfl)).bind fun _ => Outcome.faults_ok _

end Stream

/-- **A graph that cannot be built** is reported, if all jumps have targets. -/
theorem faults_build {is : List Instruction}
    (h : ∀ i ∈ is, i.transfer.aims → ∃ t, i.target? = some t) (length : Option Nat) :
    Outcome.Faults Stream.Reported (build is length) := by
  unfold build ofStream Stream.destinations
  refine (Outcome.faults_mapM fun x _ => Stream.faults_resolve _).bind fun ds =>
    (Outcome.faults_mapM fun x _ => ?_).bind fun blocks => Outcome.faults_ok _
  unfold Stream.blockAt
  dsimp only
  split
  · rename_i i hlast
    have hi : i ∈ is := List.mem_of_mem_drop (List.mem_of_mem_take (List.mem_of_getLast? hlast))
    exact (Stream.faults_endingOf _ _ (h i hi)).bind fun _ => Outcome.faults_ok _
  · exact Outcome.faults_ok _

end Graph

/-! ## Decoded instructions -/

/-- The stream of decoded instructions ends where they do, whether its length is given or not. -/
theorem Decoded.length_stream {d : Dialect} {locals codeLength : Nat} {pool : List Constant}
    {is : List Instruction} (h : Decoded d locals pool codeLength is) {length : Option Nat}
    (hlength : ∀ n ∈ length, n = codeLength) :
    (Graph.Stream.ofInstructions is length).length = codeLength := by
  unfold Graph.Stream.ofInstructions
  cases length with
  | some n => exact hlength n rfl
  | none =>
    cases hlast : is.getLast? with
    | none =>
      have htiles := h.tiles
      rw [List.getLast?_eq_none_iff.mp hlast] at htiles
      cases htiles
      rfl
    | some i => exact h.tiles.ending_getLast? hlast

/-- The jumps of decoded instructions of a registered dialect have targets among them. -/
theorem Decoded.linked {d : Dialect} (hd : d.Regular) {locals codeLength : Nat}
    {pool : List Constant} {is : List Instruction} (h : Decoded d locals pool codeLength is)
    {length : Option Nat} (hlength : ∀ n ∈ length, n = codeLength) :
    (Graph.Stream.ofInstructions is length).Linked := by
  refine ⟨fun i hi haims => ?_, fun i hi t ht => ?_⟩
  · have hi := h.conforms i hi
    obtain ⟨op, hop, -, hkinds, htransfer, -⟩ := hi.operation
    obtain ⟨a, -, hsuits⟩ := Registry.suits_of_mem op (hd.known hop)
    rw [htransfer] at haims
    exact Instruction.exists_target? hi.length (hkinds ▸ hsuits.target haims)
  · rw [h.length_stream hlength]
    exact h.jumps i hi t (Instruction.mem_zip_of_target? ht)

/-- **Decoded instructions** of a registered dialect have a graph. -/
theorem Decoded.exists_build {d : Dialect} (hd : d.Regular) {locals codeLength : Nat}
    {pool : List Constant} {is : List Instruction} (h : Decoded d locals pool codeLength is)
    {length : Option Nat} (hlength : ∀ n ∈ length, n = codeLength) :
    ∃ g, Graph.build is length = .ok g :=
  Graph.ofStream_ok (h.linked hd hlength)

end Unscript
