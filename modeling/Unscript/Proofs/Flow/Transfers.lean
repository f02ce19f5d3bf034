import Unscript.Proofs.Flow.Building
import Unscript.Proofs.Registry.Concrete
import Unscript.Proofs.Script.Reencoding
import Unscript.Structuring.Body

/-!
# Graphs and control flow

A function that was decoded to its end has a graph, and the graph is the control flow of its
instructions: the blocks cut the instructions into consecutive intervals, control enters a block at
its first instruction only and leaves it at its last one only, and the edges are the steps that the
last instruction of a block can take.

* `Transfer.arms`: the ways to go on from an instruction, each with the kind and polarity of its
  edge.
* `Leads`: where a way leads in a stream of instructions.
* `Graph.Step`: an edge that is a step of the last instruction of a block.
* `Graph.Exact`: a graph that is the control flow of its instructions.

Results:
* `Graph.Stream.Whole.exact`: the graph of a stream that was decoded to its end is exact.
* `Flow.exists_build_exact`: a function that was decoded to its end has such a graph.
-/

namespace Unscript

/-! ## Control flow of instructions -/

/-- A way to go on from an instruction: to the next one, to its target, or out of the function. -/
inductive Way where
  | next
  | target
  | leave
  deriving DecidableEq, Repr

/-- One of the ways to go on from an instruction, with the kind and the polarity of the edge that
stands for it. -/
structure Arm where
  kind : String
  polarity : Option Bool
  way : Way
  deriving DecidableEq, Repr

/-- The ways to go on. A conditional jump is taken when the test holds, or when it fails. An
iterator that begins jumps when it is exhausted, one that advances when it has an element. -/
def Transfer.arms : Transfer → List Arm
  | .next => [⟨"fallthrough", none, .next⟩]
  | .jump => [⟨"jump", none, .target⟩]
  | .branchTrue => [⟨"branch", some true, .target⟩, ⟨"branch", some false, .next⟩]
  | .branchFalse => [⟨"branch", some true, .next⟩, ⟨"branch", some false, .target⟩]
  | .iterBegin => [⟨"iter_body", some true, .next⟩, ⟨"iter_exit", some false, .target⟩]
  | .iterNext => [⟨"iter_body", some true, .target⟩, ⟨"iter_exit", some false, .next⟩]
  | .ret => [⟨"return", none, .leave⟩]

open Unscript.Graph (Destination)

/-- Where a way leads from an instruction at an index of a stream of some length. -/
inductive Leads (is : List Instruction) (length index : Nat) (i : Instruction) :
    Way → Destination → Prop where
  | next (h : index + 1 < is.length) : Leads is length index i .next (.instruction (index + 1))
  | runOff (h : index + 1 = is.length) : Leads is length index i .next .codeEnd
  | target {j : Nat} {k : Instruction} (hk : is[j]? = some k) (ht : i.target? = some k.offset) :
    Leads is length index i .target (.instruction j)
  | targetEnd (ht : i.target? = some length) : Leads is length index i .target .codeEnd
  | leave : Leads is length index i .leave .codeEnd

namespace Graph

/-- The block that control enters at a place: the one that starts there, or the virtual one. -/
inductive Enters (g : Graph) : Destination → Nat → Prop where
  | block {b : Nat} (hb : b < g.exit) : Enters g (.instruction (g.block b).start) b
  | exit : Enters g .codeEnd g.exit

/-- An edge that is a step of the last instruction of a block: one of its arms, from the block to the
one that control enters where the arm leads. -/
inductive Step (g : Graph) (length : Nat) : Edge → Prop where
  | mk {b t index : Nat} {i : Instruction} {arm : Arm} {place : Destination} (hb : b < g.exit)
    (hlast : index + 1 = (g.block (b + 1)).start) (hi : g.instructions[index]? = some i)
    (harm : arm ∈ i.transfer.arms) (hleads : Leads g.instructions length index i arm.way place)
    (henters : g.Enters place t) : Step g length ⟨b, t, arm.kind, arm.polarity⟩

/-- A graph that is the control flow of instructions of some length. -/
structure Exact (g : Graph) (is : List Instruction) (length : Nat) : Prop where
  instructions : g.instructions = is
  truncated : g.truncated = false
  virtual : g.size = g.exit + 1 ∧ (g.block g.exit).instructions = [] ∧
    (g.block g.exit).ending = .exit
  first : (g.block 0).start = 0
  last : (g.block g.exit).start = is.length
  nonempty : ∀ b < g.exit, (g.block b).start < (g.block (b + 1)).start
  interval : ∀ b < g.exit, (g.block b).instructions =
    (is.drop (g.block b).start).take ((g.block (b + 1)).start - (g.block b).start)
  held : ∀ b < g.exit, ∀ k, (g.block b).start ≤ k → k < (g.block (b + 1)).start →
    Stream.blockOf ((List.range g.exit).map fun b => (g.block b).start) k = b
  straight : ∀ b < g.exit, ∀ i ∈ (g.block b).instructions.dropLast, i.isBranch = false
  entered : ∀ i ∈ is, ∀ t, i.target? = some t → t = length ∨
    ∃ b < g.exit, ∃ k, (g.block b).instructions.head? = some k ∧ k.offset = t
  step : ∀ b < g.exit, ∃ i, (g.block b).instructions.getLast? = some i ∧ ∀ arm ∈ i.transfer.arms,
    ∃ t, g.Step length ⟨b, t, arm.kind, arm.polarity⟩
  edges : ∀ e, e ∈ g.edges ↔ g.Step length e

/-! ## Whole streams -/

/-- A stream that was decoded to its end: its instructions stand at different offsets before the
end, only those that can jump have a target, and the targets are instructions or the end. -/
structure Stream.Whole (s : Stream) : Prop where
  linked : s.Linked
  offsets : (s.instructions.map (·.offset)).Nodup
  before : ∀ i ∈ s.instructions, i.offset < s.length
  decodedEnd : s.decodedEnd = s.length
  aims : ∀ i ∈ s.instructions, ∀ t, i.target? = some t → i.transfer.aims

namespace Stream

variable {s : Stream} {i : Instruction} {ds : List Destination}

namespace Whole

theorem resolve_instruction (h : s.Whole) {j : Nat} {k : Instruction}
    (hk : s.instructions[j]? = some k) : s.resolve i k.offset = .ok (.instruction j) := by
  unfold resolve indexOf?
  rw [find?_offset h.offsets hk]
  rfl

theorem resolve_length (h : s.Whole) : s.resolve i s.length = .ok .codeEnd := by
  have hnone : s.indexOf? s.length = none := by
    unfold indexOf?
    rw [Option.map_eq_none_iff, List.find?_eq_none]
    intro x hx hsame
    have hmem := List.fst_mem_of_mem_zipIdx (List.mem_reverse.mp hx)
    have := h.before x.1 hmem
    simp only [beq_iff_eq] at hsame
    omega
  unfold resolve
  rw [hnone, if_pos rfl]

/-- **Where jumps lead** in a whole stream: to an instruction or to the end. -/
theorem leads_iff (h : s.Whole) (index : Nat) (hi : i ∈ s.instructions) {t : Nat}
    {place : Destination} (ht : i.target? = some t) :
    s.resolve i t = .ok place ↔ Leads s.instructions s.length index i .target place := by
  constructor
  · intro hresolve
    rcases h.linked.lands i hi t ht with rfl | ⟨k, hk, rfl⟩
    · rw [h.resolve_length] at hresolve
      cases hresolve
      exact .targetEnd ht
    · obtain ⟨j, hj⟩ := List.mem_iff_getElem?.mp hk
      rw [h.resolve_instruction hj] at hresolve
      cases hresolve
      exact .target hj ht
  · intro hleads
    cases hleads with
    | target hk ht' =>
      rw [ht] at ht'
      cases ht'
      exact h.resolve_instruction hk
    | targetEnd ht' =>
      rw [ht] at ht'
      cases ht'
      exact h.resolve_length

/-- No jump of a whole stream leads past what was decoded. -/
theorem not_mem_undecoded (h : s.Whole) (hds : s.destinations = .ok ds) :
    Destination.undecoded ∉ ds := by
  intro hmem
  obtain ⟨⟨i, t⟩, hx, hresolve⟩ := Outcome.exists_of_mem_mapM hds hmem
  obtain ⟨j, hj, hx⟩ := List.mem_filterMap.mp hx
  split at hx
  · obtain ⟨t', ht, heq⟩ := Option.map_eq_some_iff.mp hx
    cases heq
    cases (h.leads_iff 0 hj ht).mp hresolve
  · cases hx

/-- A target is a start. -/
theorem target_mem_starts (h : s.Whole) (hds : s.destinations = .ok ds) (hi : i ∈ s.instructions)
    {j : Nat} {k : Instruction} (hk : s.instructions[j]? = some k)
    (ht : i.target? = some k.offset) : j ∈ s.starts ds := by
  have hbranch : i.isBranch = true := by
    have := h.aims i hi _ ht
    unfold Instruction.isBranch Transfer.isBranch
    cases htransfer : i.transfer <;> rw [htransfer] at this <;> first | rfl | cases this
  have hmem : Destination.instruction j ∈ ds := by
    have hx : (i, k.offset) ∈ s.instructions.filterMap fun i =>
        if i.isBranch then i.target?.map (i, ·) else none := by
      refine List.mem_filterMap.mpr ⟨i, hi, ?_⟩
      rw [if_pos hbranch, ht]
      rfl
    obtain ⟨d, hd, hresolve⟩ := Outcome.exists_mem_mapM hds hx
    dsimp only at hresolve
    rw [h.resolve_instruction hk] at hresolve
    cases hresolve
    exact hd
  refine List.mem_filter.mpr ⟨List.mem_range.mpr (List.getElem?_eq_some_iff.mp hk).1, ?_⟩
  simp [isStart, hmem]

end Whole

/-- The instruction after one that can transfer control is a start. -/
theorem succ_mem_starts {k : Nat} (hk : s.instructions[k]? = some i) (hbranch : i.isBranch = true)
    (hlt : k + 1 < s.instructions.length) : k + 1 ∈ s.starts ds := by
  refine List.mem_filter.mpr ⟨List.mem_range.mpr hlt, ?_⟩
  simp [isStart, hk, hbranch]

end Stream

/-! ## Intervals -/

namespace Cut

variable {s : Stream} {starts : List Nat} {g : Graph} {b k : Nat}

/-- A block ends where the next one starts, and the last one where the stream ends. -/
theorem start_succ (h : Cut s starts g) (hb : b < g.exit) :
    (g.block (b + 1)).start = stopOf s starts b := by
  unfold stopOf
  rcases Nat.lt_or_ge (b + 1) g.exit with hlt | hge
  · rw [h.start_eq hlt, Option.getD_some]
  · have heq : b + 1 = starts.length := by
      rw [← h.exit_eq]
      omega
    rw [heq, h.virtual, List.getElem?_eq_none (Nat.le_refl _), Option.getD_none]

theorem start_lt_succ (h : Cut s starts g) (hb : b < g.exit) :
    (g.block b).start < (g.block (b + 1)).start := by
  rw [h.start_succ hb]
  exact h.lt_stopOf (h.start_eq hb)

theorem start_succ_le (h : Cut s starts g) (hb : b < g.exit) :
    (g.block (b + 1)).start ≤ s.instructions.length := by
  rw [h.start_succ hb]
  exact h.stopOf_le b

theorem block_instructions (h : Cut s starts g) (hb : b < g.exit) :
    (g.block b).instructions = (s.instructions.drop (g.block b).start).take
      ((g.block (b + 1)).start - (g.block b).start) := by
  obtain ⟨-, -, -, hinstructions, -⟩ := h.block_eq (h.start_eq hb)
  rw [hinstructions, h.start_succ hb]
  rfl

/-- The starts are those of the blocks with instructions. -/
theorem starts_eq (h : Cut s starts g) :
    (List.range g.exit).map (fun b => (g.block b).start) = starts := by
  refine List.ext_getElem? fun b => ?_
  rw [List.getElem?_map]
  rcases Nat.lt_or_ge b g.exit with hlt | hge
  · rw [List.getElem?_range hlt, h.start_eq hlt]
    rfl
  · rw [List.getElem?_eq_none (by simpa using hge), Option.map_none,
      List.getElem?_eq_none (by rwa [← h.exit_eq])]

/-- The instructions of a block by their indices. -/
theorem getElem?_block (h : Cut s starts g) (hb : b < g.exit)
    (hk : k < (g.block (b + 1)).start - (g.block b).start) :
    (g.block b).instructions[k]? = s.instructions[(g.block b).start + k]? := by
  rw [h.block_instructions hb, List.getElem?_take_of_lt hk, List.getElem?_drop]

theorem length_block (h : Cut s starts g) (hb : b < g.exit) :
    (g.block b).instructions.length = (g.block (b + 1)).start - (g.block b).start := by
  have := h.start_succ_le hb
  rw [h.block_instructions hb, List.length_take, List.length_drop]
  omega

/-- The last instruction of a block stands before the start of the next. -/
theorem getElem?_last (h : Cut s starts g) (hb : b < g.exit)
    (hk : k + 1 = (g.block (b + 1)).start) :
    s.instructions[k]? = (g.block b).instructions.getLast? := by
  have hlt := h.start_lt_succ hb
  have hlen := h.length_block hb
  rw [List.getLast?_eq_getElem?, h.getElem?_block hb (by omega)]
  congr 1
  omega

/-- **The block that holds an index** is the last one that starts at or before it. -/
theorem blockOf_eq (h : Cut s starts g) (hb : b < g.exit) (hle : (g.block b).start ≤ k)
    (hlt : k < (g.block (b + 1)).start) : Stream.blockOf starts k = b := by
  have hsplit := (List.take_append_drop (b + 1) starts).symm
  have hbefore : ∀ x ∈ starts.take (b + 1), decide (x ≤ k) = true := by
    intro x hx
    obtain ⟨m, hm⟩ := List.mem_iff_getElem?.mp hx
    rw [List.getElem?_take] at hm
    split at hm
    · rename_i hmb
      rcases Nat.lt_or_eq_of_le (Nat.le_of_lt_succ hmb) with hmb | rfl
      · have hstart := h.start_lt hmb hb
        rw [h.start_eq (Nat.lt_trans hmb hb)] at hm
        cases hm
        exact decide_eq_true (by omega)
      · rw [h.start_eq hb] at hm
        cases hm
        exact decide_eq_true hle
    · cases hm
  have hbehind : (starts.drop (b + 1)).takeWhile (· ≤ k) = [] := by
    have hfirst : (starts.drop (b + 1))[0]? = starts[b + 1]? := by
      rw [List.getElem?_drop, Nat.add_zero]
    cases hdrop : starts.drop (b + 1) with
    | nil => rfl
    | cons x rest =>
      rw [hdrop, List.getElem?_cons_zero] at hfirst
      have hnext : b + 1 < g.exit := by
        rw [h.exit_eq]
        exact (List.getElem?_eq_some_iff.mp hfirst.symm).1
      rw [h.start_eq hnext] at hfirst
      refine List.takeWhile_cons_of_neg ?_
      rw [Option.some.inj hfirst]
      simpa using hlt
  have hlength : (starts.take (b + 1)).length = b + 1 := by
    rw [List.length_take, ← h.exit_eq]
    omega
  unfold Stream.blockOf
  rw [hsplit, List.takeWhile_append_of_pos hbefore, hbehind, List.append_nil, hlength,
    Nat.add_sub_cancel]

/-- The blocks that start at or before an index are those up to the one that holds it. -/
theorem start_le_iff (h : Cut s starts g) (hb : b < g.exit) (hle : (g.block b).start ≤ k)
    (hlt : k < (g.block (b + 1)).start) {c : Nat} (hc : c < g.exit) :
    (g.block c).start ≤ k ↔ c ≤ b := by
  constructor
  · intro hck
    by_contra hgt
    have hnext : b + 1 ≤ c := Nat.lt_of_not_le hgt
    rcases Nat.lt_or_eq_of_le hnext with hbehind | rfl
    · have := h.start_lt hbehind hc
      omega
    · omega
  · intro hcb
    rcases Nat.lt_or_eq_of_le hcb with hbefore | rfl
    · have := h.start_lt hbefore hb
      omega
    · exact hle

/-- No block starts inside another. -/
theorem not_mem_starts (h : Cut s starts g) (hb : b < g.exit) (hgt : (g.block b).start < k)
    (hlt : k < (g.block (b + 1)).start) : k ∉ starts := by
  intro hmem
  obtain ⟨m, hm⟩ := List.mem_iff_getElem?.mp hmem
  have hmlt : m < g.exit := by
    rw [h.exit_eq]
    exact (List.getElem?_eq_some_iff.mp hm).1
  rw [h.start_eq hmlt] at hm
  cases hm
  have hone := h.blockOf_eq hb (Nat.le_of_lt hgt) hlt
  have htwo := h.blockOf_eq hmlt (Nat.le_refl _) (h.start_lt_succ hmlt)
  rw [hone] at htwo
  subst htwo
  omega

/-- The block that holds an index among the instructions. -/
theorem exists_block (h : Cut s starts g) (hmem : k ∈ starts) :
    ∃ b < g.exit, (g.block b).start = k := by
  obtain ⟨b, hb⟩ := List.mem_iff_getElem?.mp hmem
  have hlt : b < g.exit := by
    rw [h.exit_eq]
    exact (List.getElem?_eq_some_iff.mp hb).1
  rw [h.start_eq hlt] at hb
  exact ⟨b, hlt, Option.some.inj hb⟩

end Cut

/-! ## Edges -/

theorem enters_instruction {g : Graph} {j t : Nat} :
    g.Enters (.instruction j) t ↔ t < g.exit ∧ (g.block t).start = j := by
  constructor
  · intro h
    cases h with
    | block hb => exact ⟨hb, rfl⟩
  · rintro ⟨ht, rfl⟩
    exact .block ht

theorem enters_codeEnd {g : Graph} {t : Nat} : g.Enters .codeEnd t ↔ t = g.exit := by
  constructor
  · intro h
    cases h
    rfl
  · rintro rfl
    exact .exit

/-- The block that a way leads to from the last instruction of a block. -/
def Stream.Goes (s : Stream) (starts : List Nat) (next : Nat) (i : Instruction) : Way → Nat → Prop
  | .next, t => t = next
  | .target, t => s.targetBlock starts i = .ok t
  | .leave, t => t = starts.length

/-- The edges of an ending are the ways to go on from the last instruction. -/
theorem Stream.mem_edges_endingOf {s : Stream} {starts : List Nat} {next b : Nat} {i : Instruction}
    {e : Ending} (he : s.endingOf starts next i = .ok e) {edge : Edge} :
    edge ∈ e.edges b ↔ ∃ arm ∈ i.transfer.arms, ∃ t,
      s.Goes starts next i arm.way t ∧ edge = ⟨b, t, arm.kind, arm.polarity⟩ := by
  unfold endingOf at he
  cases htransfer : i.transfer <;> rw [htransfer] at he
  case next | ret =>
    cases he
    simp [Ending.edges, Transfer.arms, Goes]
  all_goals
    obtain ⟨target, htarget, he⟩ := Outcome.bind_eq_ok.mp he
    cases he
    simp [Ending.edges, Transfer.arms, Goes, htarget, eq_comm]

namespace Cut

variable {s : Stream} {ds : List Destination} {g : Graph} {b index t : Nat} {i : Instruction}

/-- Going on from the last instruction of a block leads to the next block. -/
theorem goes_next (h : Cut s (s.starts ds) g) (hb : b < g.exit)
    (hindex : index + 1 = (g.block (b + 1)).start) :
    (∃ place, Leads s.instructions s.length index i .next place ∧ g.Enters place t) ↔
      t = b + 1 := by
  have hend : (g.block g.exit).start = s.instructions.length := by rw [h.exit_eq, h.virtual]
  have hinside (hlt : b + 1 < g.exit) : index + 1 < s.instructions.length := by
    have := h.start_lt_succ hlt
    have := h.start_succ_le hlt
    omega
  have hcases : b + 1 < g.exit ∨ b + 1 = g.exit := Nat.lt_or_eq_of_le hb
  constructor
  · rintro ⟨place, hleads, henters⟩
    cases hleads with
    | next hlt =>
      obtain ⟨ht, hstart⟩ := enters_instruction.mp henters
      rcases hcases with hnext | hlast
      · rw [hindex] at hstart
        rcases Nat.lt_trichotomy t (b + 1) with hless | heq | hmore
        · have := h.start_lt hless hnext
          omega
        · exact heq
        · have := h.start_lt hmore ht
          omega
      · rw [hlast, hend] at hindex
        omega
    | runOff heq =>
      rw [enters_codeEnd.mp henters]
      rcases hcases with hnext | hlast
      · have := hinside hnext
        omega
      · exact hlast.symm
  · rintro rfl
    rcases hcases with hnext | hlast
    · exact ⟨_, .next (hinside hnext), enters_instruction.mpr ⟨hnext, hindex.symm⟩⟩
    · refine ⟨_, .runOff ?_, enters_codeEnd.mpr hlast⟩
      rw [hindex, hlast, hend]

/-- A jump leads to the block that starts at its target. -/
theorem goes_target (h : Cut s (s.starts ds) g) (hwhole : s.Whole) (hds : s.destinations = .ok ds)
    (hi : i ∈ s.instructions) :
    (∃ place, Leads s.instructions s.length index i .target place ∧ g.Enters place t) ↔
      s.targetBlock (s.starts ds) i = .ok t := by
  have hholds {j : Nat} {k : Instruction} (hk : s.instructions[j]? = some k)
      (ht : i.target? = some k.offset) :
      ∃ c < g.exit, (g.block c).start = j ∧ Stream.blockOf (s.starts ds) j = c := by
    obtain ⟨c, hc, rfl⟩ := h.exists_block (hwhole.target_mem_starts hds hi hk ht)
    exact ⟨c, hc, rfl, h.blockOf_eq hc (Nat.le_refl _) (h.start_lt_succ hc)⟩
  unfold Stream.targetBlock
  constructor
  · rintro ⟨place, hleads, henters⟩
    cases hleads with
    | target hk ht =>
      obtain ⟨c, hc, hstart, hheld⟩ := hholds hk ht
      obtain ⟨hlt, hsame⟩ := enters_instruction.mp henters
      have htc := h.blockOf_eq hlt (Nat.le_refl _) (h.start_lt_succ hlt)
      rw [hsame] at htc
      rw [ht]
      refine Outcome.bind_eq_ok.mpr ⟨_, hwhole.resolve_instruction hk, ?_⟩
      dsimp only
      rw [htc]
      rfl
    | targetEnd ht =>
      rw [ht, enters_codeEnd.mp henters, h.exit_eq]
      exact Outcome.bind_eq_ok.mpr ⟨_, hwhole.resolve_length, rfl⟩
  · intro hblock
    split at hblock
    · cases hblock
    · rename_i target ht
      obtain ⟨place, hresolve, hblock⟩ := Outcome.bind_eq_ok.mp hblock
      have hleads := (hwhole.leads_iff index hi ht).mp hresolve
      cases hleads with
      | target hk ht' =>
        obtain ⟨c, hc, hstart, hheld⟩ := hholds hk ht'
        cases hblock
        exact ⟨_, .target hk ht', enters_instruction.mpr ⟨hheld ▸ hc, hheld ▸ hstart⟩⟩
      | targetEnd ht' =>
        cases hblock
        exact ⟨_, .targetEnd ht', enters_codeEnd.mpr h.exit_eq.symm⟩

/-- **The block that a way leads to** is the one that control enters where it leads. -/
theorem goes_iff (h : Cut s (s.starts ds) g) (hwhole : s.Whole) (hds : s.destinations = .ok ds)
    (hb : b < g.exit) (hindex : index + 1 = (g.block (b + 1)).start) (hi : i ∈ s.instructions)
    (way : Way) :
    (∃ place, Leads s.instructions s.length index i way place ∧ g.Enters place t) ↔
      s.Goes (s.starts ds) (b + 1) i way t := by
  cases way with
  | next => exact h.goes_next hb hindex
  | target => exact h.goes_target hwhole hds hi
  | leave =>
    constructor
    · rintro ⟨place, hleads, henters⟩
      cases hleads
      exact (enters_codeEnd.mp henters).trans h.exit_eq
    · rintro rfl
      exact ⟨_, .leave, enters_codeEnd.mpr h.exit_eq.symm⟩

/-- The edges of a block are the steps of its last instruction. -/
theorem mem_edges_block (h : Cut s (s.starts ds) g) (hwhole : s.Whole)
    (hds : s.destinations = .ok ds) (hb : b < g.exit) {edge : Edge} :
    edge ∈ (g.block b).ending.edges b ↔ g.Step s.length edge ∧ edge.source = b := by
  obtain ⟨i, hlast, -, hinstructions, hending⟩ := h.block_eq (h.start_eq hb)
  rw [← hinstructions] at hlast
  have hpos := h.start_lt_succ hb
  have hindex : (g.block (b + 1)).start - 1 + 1 = (g.block (b + 1)).start := by omega
  have hi := (h.getElem?_last hb hindex).trans hlast
  have hmem := List.mem_of_getElem? hi
  rw [Stream.mem_edges_endingOf hending]
  constructor
  · rintro ⟨arm, harm, t, hgoes, rfl⟩
    obtain ⟨place, hleads, henters⟩ := (h.goes_iff hwhole hds hb hindex hmem arm.way).mpr hgoes
    exact ⟨.mk hb hindex (h.instructions ▸ hi) harm (h.instructions ▸ hleads) henters, rfl⟩
  · rintro ⟨hstep, rfl⟩
    cases hstep with
    | @mk b t index j arm place hb' hindex' hj harm hleads henters =>
      have heq : index = (g.block (b + 1)).start - 1 := by omega
      rw [h.instructions] at hj hleads
      rw [heq, hi] at hj
      cases hj
      exact ⟨arm, harm, t, (h.goes_iff hwhole hds hb hindex' hmem arm.way).mp
        ⟨place, hleads, henters⟩, rfl⟩

end Cut

/-! ## Exact graphs -/

theorem mem_edges {g : Graph} {e : Edge} (hexit : (g.block g.exit).ending = .exit)
    (hsize : g.size = g.exit + 1) :
    e ∈ g.edges ↔ ∃ b < g.exit, e ∈ (g.block b).ending.edges b := by
  have hblock {b : Nat} {x : Block} (hb : g.blocks.toList[b]? = some x) : g.block b = x := by
    unfold block
    rw [← Array.getElem?_toList, hb]
    rfl
  unfold edges
  rw [List.mem_flatMap]
  constructor
  · rintro ⟨⟨x, b⟩, hmem, he⟩
    have hb := List.mk_mem_zipIdx_iff_getElem?.mp hmem
    have hlt : b < g.size := (List.getElem?_eq_some_iff.mp hb).1
    have hx := hblock hb
    replace he : e ∈ x.ending.edges b := he
    refine ⟨b, ?_, hx ▸ he⟩
    rcases Nat.lt_or_eq_of_le (Nat.le_of_lt_succ (hsize ▸ hlt)) with hlt | rfl
    · exact hlt
    · rw [← hx, hexit] at he
      cases he
  · rintro ⟨b, hb, he⟩
    have hlt : b < g.blocks.toList.length := by
      have : b < g.size := by omega
      exact this
    have hget := List.getElem?_eq_getElem hlt
    exact ⟨(_, b), List.mk_mem_zipIdx_iff_getElem?.mpr hget, hblock hget ▸ he⟩

namespace Cut

variable {s : Stream} {ds : List Destination} {g : Graph} {b : Nat}

theorem start_zero (h : Cut s (s.starts ds) g) : (g.block 0).start = 0 := by
  by_cases hempty : s.instructions = []
  · have hnil : s.starts ds = [] := by
      unfold Stream.starts
      rw [hempty]
      rfl
    have hvirtual := h.virtual
    rw [hnil, hempty] at hvirtual
    exact congrArg Block.start hvirtual
  · have hfirst := h.first hempty
    rw [List.head?_eq_getElem?] at hfirst
    have hpos : 0 < g.exit := by
      rw [h.exit_eq]
      exact (List.getElem?_eq_some_iff.mp hfirst).1
    rw [h.start_eq hpos] at hfirst
    exact Option.some.inj hfirst

/-- Only the last instruction of a block can transfer control. -/
theorem not_isBranch (h : Cut s (s.starts ds) g) (hb : b < g.exit) {i : Instruction}
    (hi : i ∈ (g.block b).instructions.dropLast) : i.isBranch = false := by
  obtain ⟨k, hk⟩ := List.mem_iff_getElem?.mp hi
  have hlt := (List.getElem?_eq_some_iff.mp hk).1
  have hlen := h.length_block hb
  have hend := h.start_succ_le hb
  rw [List.length_dropLast] at hlt
  rw [List.getElem?_dropLast, if_pos hlt, h.getElem?_block hb (by omega)] at hk
  by_contra hbranch
  have hmem : _ ∈ s.starts ds := Stream.succ_mem_starts hk (Bool.eq_true_of_not_eq_false hbranch)
    (by omega)
  exact h.not_mem_starts hb (by omega) (by omega) hmem

/-- Control enters a block at its first instruction. -/
theorem exists_entered (h : Cut s (s.starts ds) g) (hwhole : s.Whole)
    (hds : s.destinations = .ok ds) {i : Instruction} (hi : i ∈ s.instructions) {t : Nat}
    (ht : i.target? = some t) : t = s.length ∨
      ∃ b < g.exit, ∃ k, (g.block b).instructions.head? = some k ∧ k.offset = t := by
  rcases hwhole.linked.lands i hi t ht with hend | ⟨k, hk, rfl⟩
  · exact .inl hend
  · obtain ⟨j, hj⟩ := List.mem_iff_getElem?.mp hk
    obtain ⟨b, hb, rfl⟩ := h.exists_block (hwhole.target_mem_starts hds hi hj ht)
    refine .inr ⟨b, hb, k, ?_, rfl⟩
    have hlt := h.start_lt_succ hb
    rw [List.head?_eq_getElem?, h.getElem?_block hb (by omega)]
    exact hj

end Cut

/-- **Whole streams.** The graph of a stream that was decoded to its end is the control flow of its
instructions. -/
theorem Stream.Whole.exact {s : Stream} (hwhole : s.Whole) {g : Graph} (h : ofStream s = .ok g) :
    g.Exact s.instructions s.length := by
  obtain ⟨ds, hds, htruncated, hcut⟩ := cut_destinations h
  have hsize : g.size = g.exit + 1 := by rw [hcut.size, hcut.exit_eq]
  have hvirtual := hcut.block_of_exit_le (Nat.le_refl g.exit)
  have hedges {e : Edge} : e ∈ g.edges ↔ g.Step s.length e := by
    rw [mem_edges hvirtual.2 hsize]
    constructor
    · rintro ⟨b, hb, he⟩
      exact ((hcut.mem_edges_block hwhole hds hb).mp he).1
    · intro hstep
      have hreal : e.source < g.exit := by
        cases hstep
        assumption
      exact ⟨e.source, hreal, (hcut.mem_edges_block hwhole hds hreal).mpr ⟨hstep, rfl⟩⟩
  refine
    { instructions := hcut.instructions
      truncated := ?_
      virtual := ⟨hsize, hvirtual⟩
      first := hcut.start_zero
      last := by rw [hcut.exit_eq, hcut.virtual]
      nonempty := fun b hb => hcut.start_lt_succ hb
      interval := fun b hb => hcut.block_instructions hb
      held := fun b hb k hle hlt => ?_
      straight := fun b hb i hi => hcut.not_isBranch hb hi
      entered := fun i hi t ht => hcut.exists_entered hwhole hds hi ht
      step := fun b hb => ?_
      edges := fun e => hedges }
  · rw [htruncated]
    simpa using hwhole.not_mem_undecoded hds
  · rw [hcut.starts_eq]
    exact hcut.blockOf_eq hb hle hlt
  · obtain ⟨i, hlast, -, hinstructions, hending⟩ := hcut.block_eq (hcut.start_eq hb)
    rw [← hinstructions] at hlast
    refine ⟨i, hlast, fun arm harm => ?_⟩
    -- The ending has an edge for every arm.
    obtain ⟨t, hgoes⟩ : ∃ t, s.Goes (s.starts ds) (b + 1) i arm.way t := by
      cases hway : arm.way with
      | next => exact ⟨_, rfl⟩
      | leave => exact ⟨_, rfl⟩
      | target =>
        have haims : i.transfer.aims := by
          cases htransfer : i.transfer <;> rw [htransfer] at harm <;>
            simp_all [Transfer.arms, Transfer.aims]
        have hi : i ∈ s.instructions := by
          have := hcut.block_instructions hb
          rw [this] at hlast
          exact List.mem_of_mem_drop (List.mem_of_mem_take (List.mem_of_getLast? hlast))
        exact Stream.targetBlock_ok hwhole.linked _ hi haims
    refine ⟨t, hedges.mp ((mem_edges hvirtual.2 hsize).mpr ⟨b, hb, ?_⟩)⟩
    exact (Stream.mem_edges_endingOf hending).mpr ⟨arm, harm, t, hgoes, rfl⟩

end Graph

/-! ## Decoded functions -/

/-- An operation with a target is one that can jump. -/
theorem Registry.aims_of_mem : ∀ op ∈ knownOperations, .jump ∈ op.operands → op.transfer.aims := by
  decide +kernel

/-- The stream of instructions that were decoded to their end is whole. -/
theorem Decoded.whole {d : Dialect} (hd : d.Regular) {locals codeLength : Nat}
    {pool : List Constant} {is : List Instruction} (h : Decoded d locals pool codeLength is)
    {length : Option Nat} (hlength : ∀ n ∈ length, n = codeLength) :
    (Graph.Stream.ofInstructions is length).Whole := by
  have hend := h.length_stream hlength
  refine ⟨h.linked hd hlength, h.tiles.nodup_offset, fun i hi => ?_, ?_, fun i hi t ht => ?_⟩
  · rw [hend]
    exact h.tiles.offset_lt i hi
  · have hnone : (Graph.Stream.ofInstructions is none).length = codeLength :=
      h.length_stream fun _ hn => nomatch hn
    exact hnone.trans hend.symm
  · obtain ⟨op, hop, -, hkinds, htransfer, -⟩ := (h.conforms i hi).operation
    have hjump := (List.of_mem_zip (Instruction.mem_zip_of_target? ht)).1
    rw [hkinds] at hjump
    rw [htransfer]
    exact Registry.aims_of_mem op (hd.known hop) hjump

namespace Flow

/-- A function that was decoded to its end has a graph. -/
theorem exists_build_of_complete {d : Dialect} (hd : d.Registered) {payload : List UInt8}
    {f : Function} (hf : f ∈ (Script.decode d payload).functions) (hcomplete : f.complete)
    {length : Option Nat} (hlength : ∀ n ∈ length, n = f.codeLength) :
    ∃ flow, build f.instructions length = .ok flow := by
  obtain ⟨g, hg⟩ := (Script.decoded_of_mem hd hf hcomplete).exists_build hd.regular hlength
  refine ⟨ofGraph g, ?_⟩
  unfold build
  rw [hg]
  rfl

/-- **Graphs are exact.** A function that was decoded to its end has a graph, whether the length of
its code is given or not, and it is the control flow of its instructions. Every index of an
instruction is found in the block whose interval it lies in. -/
theorem exists_build_exact {d : Dialect} (hd : d.Registered) {payload : List UInt8} {f : Function}
    (hf : f ∈ (Script.decode d payload).functions) (hcomplete : f.complete) (length : Option Nat)
    (hlength : ∀ n ∈ length, n = f.codeLength) :
    ∃ flow, build f.instructions length = .ok flow ∧
      flow.graph.Exact f.instructions f.codeLength ∧
      ∀ p : Plan, p.flow = flow → ∀ b < flow.exit, ∀ k, (flow.block b).start ≤ k →
        k < (flow.block (b + 1)).start → Structuring.blockAt p k = b := by
  have hdecoded := Script.decoded_of_mem hd hf hcomplete
  obtain ⟨g, hg⟩ := hdecoded.exists_build hd.regular hlength
  have hexact := (hdecoded.whole hd.regular hlength).exact hg
  rw [hdecoded.length_stream hlength] at hexact
  refine ⟨ofGraph g, ?_, hexact, ?_⟩
  · unfold build
    rw [hg]
    rfl
  · rintro p hp b hb k hle hlt
    obtain ⟨starts, hcut⟩ := Graph.cut_of_ofStream hg
    unfold Structuring.blockAt
    rw [hp]
    exact congrArg (Option.getD · 0) (Graph.getLast?_filter_range hb fun id hid =>
      decide_eq_true_iff.trans (hcut.start_le_iff hb hle hlt hid))

/-- An iteration with a conditional in its body. -/
theorem exists_build_exact_iteration :
    ∃ f ∈ (Script.decode Registry.oldest [1, 0, 0, 0, 0, 0, 0, 0, 0, 0, 0, 4, 4, 0, 0, 0, 0, 21, 0,
        0, 0, 2, 0, 42, 1, 2, 21, 0, 2, 3, 41, 16, 0, 2, 2, 3, 3, 43, 1, 2, 7, 0]).functions,
      f.complete ∧ f.instructions.length = 7 ∧
      ∃ flow, build f.instructions (some f.codeLength) = .ok flow ∧
        flow.graph.Exact f.instructions f.codeLength ∧
        ∀ p : Plan, p.flow = flow → ∀ b < flow.exit, ∀ k, (flow.block b).start ≤ k →
          k < (flow.block (b + 1)).start → Structuring.blockAt p k = b := by
  have hfound : ((Script.decode Registry.oldest [1, 0, 0, 0, 0, 0, 0, 0, 0, 0, 0, 4, 4, 0, 0, 0, 0,
      21, 0, 0, 0, 2, 0, 42, 1, 2, 21, 0, 2, 3, 41, 16, 0, 2, 2, 3, 3, 43, 1, 2, 7, 0]).functions.any
      fun f => f.complete && f.instructions.length == 7) = true := by
    decide +kernel
  obtain ⟨f, hf, hfound⟩ := List.any_eq_true.mp hfound
  obtain ⟨hcomplete, hseven⟩ := Bool.and_eq_true_iff.mp hfound
  exact ⟨f, hf, hcomplete, eq_of_beq hseven,
    exists_build_exact (Dialect.registered_of_mem Registry.oldest_mem) hf hcomplete
      (some f.codeLength) fun n hn => (Option.some.inj hn).symm⟩

end Flow

end Unscript
