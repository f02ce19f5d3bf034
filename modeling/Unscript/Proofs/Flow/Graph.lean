import Unscript.Flow.Graph
import Unscript.Proofs.Outcome

/-!
# Graphs of streams

A graph is cut from a stream at the indices where blocks start. Every block but the virtual one
holds instructions, the last of which decides where control goes.

* `Graph.Cut`: how a graph is cut from a stream.
* `Graph.Proper`: what holds of every graph that was built.

Results:
* `Graph.cut_of_ofStream`: a graph that is built is cut from its stream.
* `Graph.proper_of_build`: a graph that is built is proper.
* `Graph.Cut.instructions_eq`: the blocks hold the instructions of the stream in order.
-/

namespace Unscript

/-- The kind of the ending that an instruction gives a block. -/
def Transfer.endingKind : Transfer → EndingKind
  | .next => .fallthrough
  | .jump => .jump
  | .branchTrue | .branchFalse => .cond
  | .iterBegin => .iterBegin
  | .iterNext => .iterNext
  | .ret => .ret

/-- Whether control goes where a value says. -/
def Transfer.asks : Transfer → Bool
  | .branchTrue | .branchFalse | .iterBegin => true
  | .next | .jump | .iterNext | .ret => false

/-- Whether control can go where an operand says. -/
def Transfer.aims : Transfer → Bool
  | .jump | .branchTrue | .branchFalse | .iterBegin | .iterNext => true
  | .next | .ret => false

theorem Transfer.asks_iff {t : Transfer} :
    t.asks ↔ t.endingKind = .cond ∨ t.endingKind = .iterBegin := by
  cases t <;> decide

theorem Transfer.endingKind_eq_iterBegin {t : Transfer} :
    t.endingKind = .iterBegin ↔ t = .iterBegin := by
  cases t <;> decide

namespace Graph

/-- How a graph is cut from a stream at the indices where blocks start. -/
structure Cut (s : Stream) (starts : List Nat) (g : Graph) : Prop where
  ascending : starts.Pairwise (· < ·)
  inside : ∀ i ∈ starts, i < s.instructions.length
  first : s.instructions ≠ [] → starts.head? = some 0
  size : g.size = starts.length + 1
  instructions : g.instructions = s.instructions
  block : ∀ id start, starts[id]? = some start → s.blockAt starts id start = .ok (g.block id)
  virtual : g.block starts.length = ⟨s.instructions.length, [], .exit⟩

/-- What holds of every graph that was built: the last block is virtual, the others end with an
instruction that fits their ending, and control stays among the blocks. -/
structure Proper (g : Graph) : Prop where
  size_pos : 0 < g.size
  ending_exit : (g.block g.exit).ending = .exit
  last : ∀ id < g.exit, ∃ i, (g.block id).instructions.getLast? = some i ∧
    (g.block id).ending.kind = i.transfer.endingKind
  targets : ∀ id, ∀ t ∈ (g.block id).ending.successors, t ≤ g.exit
  ret : ∀ id t, (g.block id).ending = .ret t → t = g.exit
  element : ∀ id a b, (g.block id).ending = .iterBegin a b → a = id + 1
  exhausted : ∀ id a b, (g.block id).ending = .iterNext a b → b = id + 1

/-! ## Cutting -/

/-- The last index that passes a test, when the indices up to it are those that do. -/
theorem getLast?_filter_range {q : Nat → Bool} {n b : Nat} (hb : b < n)
    (h : ∀ id < n, q id ↔ id ≤ b) : ((List.range n).filter q).getLast? = some b := by
  obtain ⟨m, rfl⟩ := Nat.exists_eq_add_of_le (Nat.succ_le_of_lt hb)
  rw [List.range_add, List.filter_append, List.filter_eq_self.mpr, List.filter_eq_nil_iff.mpr,
    List.append_nil, List.range_succ, List.getLast?_concat]
  · intro id hid
    obtain ⟨k, hk, rfl⟩ := List.mem_map.mp hid
    rw [h _ (Nat.add_lt_add_left (List.mem_range.mp hk) _)]
    omega
  · intro id hid
    rw [List.mem_range] at hid
    exact (h id (by omega)).mpr (by omega)

/-- A graph that is built is cut from its stream where the destinations of the jumps say. -/
theorem cut_destinations {s : Stream} {g : Graph} (h : ofStream s = .ok g) :
    ∃ ds, s.destinations = .ok ds ∧ g.truncated = ds.contains .undecoded ∧
      Cut s (s.starts ds) g := by
  obtain ⟨ds, hds, h⟩ := Outcome.bind_eq_ok.mp h
  obtain ⟨blocks, hblocks, h⟩ := Outcome.bind_eq_ok.mp h
  cases h
  have hforall := Outcome.mapM_eq_ok.mp hblocks
  have hlen : blocks.length = (s.starts ds).length := by
    rw [← hforall.length_eq, List.length_zipIdx]
  refine ⟨ds, hds, rfl, ?_, ?_, ?_, ?_, rfl, ?_, ?_⟩
  · exact (List.pairwise_lt_range).filter _
  · intro i hi
    exact List.mem_range.mp (List.mem_filter.mp hi).1
  · intro hne
    obtain ⟨n, hn⟩ := Nat.exists_eq_succ_of_ne_zero
      (fun h0 => hne (List.length_eq_zero_iff.mp h0))
    unfold Stream.starts
    rw [hn, List.range_succ_eq_map, List.filter_cons_of_pos (by simp [Stream.isStart])]
    rfl
  · simp only [size, List.size_toArray, List.length_append, List.length_singleton, hlen]
  · intro id start hstart
    obtain ⟨hid, hstart⟩ := List.getElem?_eq_some_iff.mp hstart
    have hblock := hforall.get (i := id) (by rwa [List.length_zipIdx]) (by rwa [hlen])
    simp only [List.get_eq_getElem, List.getElem_zipIdx, Nat.zero_add, hstart] at hblock
    rw [hblock]
    unfold Graph.block
    simp only [List.getElem?_toArray, List.getElem?_append_left (hlen ▸ hid),
      List.getElem?_eq_getElem (hlen ▸ hid), Option.getD_some]
  · unfold Graph.block
    simp only [List.getElem?_toArray, ← hlen, List.getElem?_append_right (Nat.le_refl _),
      Nat.sub_self, List.getElem?_cons_zero, Option.getD_some]

/-- A graph that is built is cut from its stream. -/
theorem cut_of_ofStream {s : Stream} {g : Graph} (h : ofStream s = .ok g) :
    ∃ starts, Cut s starts g := by
  obtain ⟨ds, -, -, hcut⟩ := cut_destinations h
  exact ⟨_, hcut⟩

namespace Cut

variable {s : Stream} {starts : List Nat} {g : Graph}

theorem exit_eq (h : Cut s starts g) : g.exit = starts.length := by
  unfold Graph.exit
  rw [h.size, Nat.add_sub_cancel]

/-- The index where the block after the one of an id starts. -/
def stopOf (s : Stream) (starts : List Nat) (id : Nat) : Nat :=
  starts[id + 1]?.getD s.instructions.length

theorem lt_stopOf (h : Cut s starts g) {id start : Nat} (hstart : starts[id]? = some start) :
    start < stopOf s starts id := by
  obtain ⟨hid, rfl⟩ := List.getElem?_eq_some_iff.mp hstart
  unfold stopOf
  rcases Nat.lt_or_ge (id + 1) starts.length with hlt | hge
  · rw [List.getElem?_eq_getElem hlt, Option.getD_some]
    exact List.pairwise_iff_getElem.mp h.ascending id (id + 1) hid hlt (Nat.lt_succ_self id)
  · rw [List.getElem?_eq_none hge, Option.getD_none]
    exact h.inside _ (List.getElem_mem hid)

theorem stopOf_le (h : Cut s starts g) (id : Nat) :
    stopOf s starts id ≤ s.instructions.length := by
  unfold stopOf
  cases hnext : starts[id + 1]? with
  | none => exact Nat.le_refl _
  | some next => exact Nat.le_of_lt (h.inside next (List.mem_of_getElem? hnext))

/-- What a block of a graph is: the slice of the stream from where it starts, and the ending that
its last instruction gives. -/
theorem block_eq (h : Cut s starts g) {id start : Nat} (hstart : starts[id]? = some start) :
    ∃ i, (s.slice starts id start).getLast? = some i ∧ (g.block id).start = start ∧
      (g.block id).instructions = s.slice starts id start ∧
      s.endingOf starts (id + 1) i = .ok (g.block id).ending := by
  have hlt := h.lt_stopOf hstart
  have hle := h.stopOf_le id
  have hblock := h.block id start hstart
  unfold Stream.blockAt at hblock
  cases hlast : (s.slice starts id start).getLast? with
  | none =>
    have hnil := List.getLast?_eq_none_iff.mp hlast
    have hlen : (s.slice starts id start).length = stopOf s starts id - start := by
      unfold Stream.slice stopOf at *
      rw [List.length_take, List.length_drop]
      omega
    rw [hnil, List.length_nil] at hlen
    omega
  | some i =>
    simp only [hlast] at hblock
    obtain ⟨e, hending, hblock⟩ := Outcome.bind_eq_ok.mp hblock
    rw [← Except.ok.inj hblock]
    exact ⟨i, rfl, rfl, rfl, hending⟩

theorem blockOf_lt (h : Cut s starts g) (hne : s.instructions ≠ []) (index : Nat) :
    Stream.blockOf starts index < starts.length := by
  have hpos : 0 < starts.length := by
    cases starts with
    | nil => cases h.first hne
    | cons _ _ => exact Nat.succ_pos _
  have hle := (List.takeWhile_prefix (l := starts) (· ≤ index)).length_le
  unfold Stream.blockOf
  omega

/-- A jump leads to a block or to the end. -/
theorem targetBlock_le (h : Cut s starts g) (hne : s.instructions ≠ []) {i : Instruction}
    {target : Nat} (ht : s.targetBlock starts i = .ok target) : target ≤ starts.length := by
  unfold Stream.targetBlock at ht
  split at ht
  · cases ht
  · obtain ⟨d, -, ht⟩ := Outcome.bind_eq_ok.mp ht
    cases d with
    | instruction index =>
      rw [← Except.ok.inj ht]
      exact Nat.le_of_lt (h.blockOf_lt hne index)
    | codeEnd => exact Nat.le_of_eq (Except.ok.inj ht).symm
    | undecoded => exact Nat.le_of_eq (Except.ok.inj ht).symm

/-- What the ending of a block is like. -/
structure Ends (starts : List Nat) (next : Nat) (i : Instruction) (e : Ending) : Prop where
  kind : e.kind = i.transfer.endingKind
  targets : ∀ t ∈ e.successors, t ≤ starts.length
  ret : ∀ t, e = .ret t → t = starts.length
  element : ∀ a b, e = .iterBegin a b → a = next
  exhausted : ∀ a b, e = .iterNext a b → b = next

theorem endingOf_ok (h : Cut s starts g) (hne : s.instructions ≠ []) {next : Nat}
    {i : Instruction} {e : Ending} (hnext : next ≤ starts.length)
    (he : s.endingOf starts next i = .ok e) : Ends starts next i e := by
  have htwo {a b : Nat} (ha : a ≤ starts.length) (hb : b ≤ starts.length) :
      ∀ t ∈ (if a = b then [a] else [a, b]), t ≤ starts.length := by
    intro t ht
    split at ht
    · rw [List.mem_singleton.mp ht]
      exact ha
    · rcases List.mem_pair.mp ht with rfl | rfl
      · exact ha
      · exact hb
  unfold Stream.endingOf at he
  cases htransfer : i.transfer <;> rw [htransfer] at he
  case next =>
    cases he
    exact ⟨by rw [htransfer]; rfl, by simpa [Ending.successors] using hnext, by simp, by simp,
      by simp⟩
  case ret =>
    cases he
    exact ⟨by rw [htransfer]; rfl, by simp [Ending.successors], by simp, by simp, by simp⟩
  all_goals
    obtain ⟨t, ht, he⟩ := Outcome.bind_eq_ok.mp he
    have htarget := h.targetBlock_le hne ht
    cases he
  case jump =>
    exact ⟨by rw [htransfer]; rfl, by simpa [Ending.successors] using htarget, by simp, by simp,
      by simp⟩
  case branchTrue => exact ⟨by rw [htransfer]; rfl, htwo htarget hnext, by simp, by simp, by simp⟩
  case branchFalse => exact ⟨by rw [htransfer]; rfl, htwo hnext htarget, by simp, by simp, by simp⟩
  case iterBegin => exact ⟨by rw [htransfer]; rfl, htwo hnext htarget, by simp, by simp_all, by simp⟩
  case iterNext => exact ⟨by rw [htransfer]; rfl, htwo htarget hnext, by simp, by simp, by simp_all⟩

theorem ends_block (h : Cut s starts g) {id : Nat} (hid : id < g.exit) :
    ∃ i, (g.block id).instructions.getLast? = some i ∧
      Ends starts (id + 1) i (g.block id).ending := by
  rw [h.exit_eq] at hid
  have hstart := List.getElem?_eq_getElem hid
  obtain ⟨i, hlast, -, hinstructions, hending⟩ := h.block_eq hstart
  have hne : s.instructions ≠ [] := by
    intro hnil
    have := h.inside _ (List.getElem_mem hid)
    rw [hnil] at this
    exact absurd this (Nat.not_lt_zero _)
  exact ⟨i, hinstructions ▸ hlast, h.endingOf_ok hne (Nat.succ_le_of_lt hid) hending⟩

theorem block_of_exit_le (h : Cut s starts g) {id : Nat} (hid : g.exit ≤ id) :
    (g.block id).instructions = [] ∧ (g.block id).ending = .exit := by
  rcases Nat.eq_or_lt_of_le hid with heq | hlt
  · rw [← heq, h.exit_eq, h.virtual]
    exact ⟨rfl, rfl⟩
  · unfold Graph.block
    have hsize : g.size ≤ id := by
      rw [h.exit_eq] at hlt
      rw [h.size]
      omega
    unfold Graph.size at hsize
    rw [Array.getElem?_eq_none hsize]
    exact ⟨rfl, rfl⟩

theorem lt_exit (h : Cut s starts g) {b : Nat} {i : Instruction}
    (hi : i ∈ (g.block b).instructions) : b < g.exit := by
  by_contra hge
  rw [(h.block_of_exit_le (Nat.not_lt.mp hge)).1] at hi
  cases hi

theorem proper (h : Cut s starts g) : g.Proper := by
  have hending (id : Nat) : (g.block id).ending = .exit ∨
      ∃ i, Ends starts (id + 1) i (g.block id).ending := by
    rcases Nat.lt_or_ge id g.exit with hlt | hge
    · obtain ⟨i, -, he⟩ := h.ends_block hlt
      exact .inr ⟨i, he⟩
    · exact .inl (h.block_of_exit_le hge).2
  have hexit := (h.block_of_exit_le (Nat.le_refl _)).2
  refine ⟨by rw [h.size]; exact Nat.succ_pos _, hexit, ?_, ?_, ?_, ?_, ?_⟩
  · intro id hid
    obtain ⟨i, hlast, he⟩ := h.ends_block hid
    exact ⟨i, hlast, he.kind⟩
  · intro id t ht
    rw [h.exit_eq]
    rcases hending id with hexit | ⟨i, he⟩
    · rw [hexit] at ht
      cases ht
    · exact he.targets t ht
  · intro id t ht
    rw [h.exit_eq]
    rcases hending id with hexit | ⟨i, he⟩
    · rw [hexit] at ht
      cases ht
    · exact he.ret t ht
  · intro id a b hab
    rcases hending id with hexit | ⟨i, he⟩
    · rw [hexit] at hab
      cases hab
    · exact he.element a b hab
  · intro id a b hab
    rcases hending id with hexit | ⟨i, he⟩
    · rw [hexit] at hab
      cases hab
    · exact he.exhausted a b hab

theorem start_eq (h : Cut s starts g) {id : Nat} (hid : id < g.exit) :
    starts[id]? = some (g.block id).start := by
  rw [h.exit_eq] at hid
  have hstart := List.getElem?_eq_getElem hid
  obtain ⟨i, -, heq, -⟩ := h.block_eq hstart
  rw [hstart, heq]

theorem start_lt (h : Cut s starts g) {a b : Nat} (hab : a < b) (hb : b < g.exit) :
    (g.block a).start < (g.block b).start := by
  obtain ⟨ha, heq⟩ := List.getElem?_eq_some_iff.mp (h.start_eq (Nat.lt_trans hab hb))
  obtain ⟨hb, heq'⟩ := List.getElem?_eq_some_iff.mp (h.start_eq hb)
  have := List.pairwise_iff_getElem.mp h.ascending a b ha hb hab
  rwa [heq, heq'] at this

/-- The index of an instruction lies between the start of its block and that of the next. -/
theorem exists_index (h : Cut s starts g) {b : Nat} {i : Instruction}
    (hi : i ∈ (g.block b).instructions) : ∃ k, s.instructions[k]? = some i ∧
      ∀ id < g.exit, (g.block id).start ≤ k ↔ id ≤ b := by
  have hb := h.lt_exit hi
  obtain ⟨-, -, -, hinstructions, -⟩ := h.block_eq (h.start_eq hb)
  rw [hinstructions] at hi
  obtain ⟨m, hm⟩ := List.mem_iff_getElem?.mp hi
  unfold Stream.slice at hm
  rw [List.getElem?_take] at hm
  split at hm
  · rename_i hlt
    rw [List.getElem?_drop] at hm
    refine ⟨(g.block b).start + m, hm, fun id hid => ⟨fun hle => ?_, fun hle => ?_⟩⟩
    · by_contra hgt
      -- The next block starts behind the instruction, and the one of `id` not before the next.
      have hnext : b + 1 ≤ id := Nat.lt_of_not_le hgt
      rw [h.start_eq (Nat.lt_of_le_of_lt hnext hid), Option.getD_some] at hlt
      rcases Nat.eq_or_lt_of_le hnext with rfl | hbehind
      · omega
      · have := h.start_lt hbehind hid
        omega
    · rcases Nat.eq_or_lt_of_le hle with rfl | hbefore
      · exact Nat.le_add_right _ _
      · exact Nat.le_trans (Nat.le_of_lt (h.start_lt hbefore hb)) (Nat.le_add_right _ _)
  · cases hm

/-- The blocks from an id on hold the instructions from where the first of them starts. -/
theorem instructions_from (h : Cut s starts g) {n id start : Nat} (hstart : starts[id]? = some start)
    (hn : id + n = starts.length) :
    (List.range' id n).flatMap (fun id => (g.block id).instructions) =
      s.instructions.drop start := by
  induction n generalizing id start with
  | zero =>
    have hid := (List.getElem?_eq_some_iff.mp hstart).1
    omega
  | succ n ih =>
    obtain ⟨i, -, -, hinstructions, -⟩ := h.block_eq hstart
    have hlt := h.lt_stopOf hstart
    rw [List.range'_succ, List.flatMap_cons, hinstructions]
    unfold Stream.slice
    cases hnext : starts[id + 1]? with
    | none =>
      have hge := List.getElem?_eq_none_iff.mp hnext
      have hzero : n = 0 := by omega
      rw [Option.getD_none, hzero, List.range'_zero, List.flatMap_nil, List.append_nil]
      exact List.take_of_length_le (Nat.le_of_eq List.length_drop)
    | some next =>
      rw [stopOf, hnext, Option.getD_some] at hlt
      rw [Option.getD_some, ih hnext (by omega)]
      have hdrop : s.instructions.drop next = (s.instructions.drop start).drop (next - start) := by
        rw [List.drop_drop]
        congr 1
        omega
      rw [hdrop, List.take_append_drop]

/-- The blocks hold the instructions of the stream in order. -/
theorem instructions_eq (h : Cut s starts g) :
    (List.range g.exit).flatMap (fun id => (g.block id).instructions) = g.instructions := by
  rw [h.exit_eq, h.instructions, List.range_eq_range']
  by_cases hne : s.instructions = []
  · have hnil : starts = [] := by
      refine List.eq_nil_iff_forall_not_mem.mpr fun i hi => ?_
      have := h.inside i hi
      rw [hne] at this
      exact absurd this (Nat.not_lt_zero _)
    rw [hnil, hne]
    rfl
  · have hfirst := h.first hne
    rw [List.head?_eq_getElem?] at hfirst
    exact h.instructions_from hfirst (Nat.zero_add _)

theorem mem_instructions (h : Cut s starts g) {b : Nat} {i : Instruction}
    (hi : i ∈ (g.block b).instructions) : i ∈ s.instructions := by
  rw [← h.instructions, ← h.instructions_eq]
  exact List.mem_flatMap.mpr ⟨b, List.mem_range.mpr (h.lt_exit hi), hi⟩

end Cut

/-- A graph that is built is proper. -/
theorem proper_of_build {is : List Instruction} {length : Option Nat} {g : Graph}
    (h : build is length = .ok g) : g.Proper := by
  obtain ⟨starts, hcut⟩ := cut_of_ofStream h
  exact hcut.proper

end Graph

end Unscript
