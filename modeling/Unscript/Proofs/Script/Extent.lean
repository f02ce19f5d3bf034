import Mathlib.Algebra.Order.BigOperators.Group.List
import Unscript.Proofs.Script.Counting
import Unscript.Proofs.Script.Records

/-!
# The bytes behind decoded functions

Whatever a payload declares, every function that is decoded, in full or in part, stands on bytes of
its own: those of its head, and at least one for each name, constant, instruction and line that it
holds.

* `Function.items`: how many of these a function holds.
* `Decode.leastHead`: the bytes that a head takes at least.

Results:
* `Decode.length_code_le`: code does not hold more instructions than bytes.
* `Decode.function_extent`: the bytes of one function.
* `Script.sum_items_le`: those of all functions of a payload, however it is bounded.
* `Script.sum_extents_le`: the instructions alone.
-/

namespace Unscript

/-- How many names of locals, constants, instructions and lines a function holds. -/
def Function.items (f : Function) : Nat :=
  f.header.localNames.length + f.constants.length + f.instructions.length + f.lines.length

namespace Decode

open Reading (runFrom_bind_ok)

variable {d : Dialect} {locals start codeEnd functionCount index : Nat} {pool : List Constant}
  {bounds : Bounds} {c c' : Cursor} {f : Function}

/-! ## Code -/

/-- Every instruction that is read takes a byte that is there. -/
theorem length_instructions_le {stop fuel : Nat} {done : List Placed} (hc : c.Valid) :
    (decodedOf (·.1) (instructions d locals pool start codeEnd stop fuel done c)).length ≤
      done.length + min (codeEnd - c.offset) c.rest.length := by
  induction fuel generalizing done c with
  | zero => simp [instructions, decodedOf]
  | succ fuel ih =>
    unfold instructions
    split
    · simp [decodedOf]
    · split
      · rename_i p c₁ hrun
        obtain ⟨bs, hthrough, hend, -, hread⟩ := instruction_through hc hrun
        have hpos := hread.size_pos
        have hrest := congrArg List.length hthrough.rest
        have hoffset := hthrough.offset
        rw [List.length_append] at hrest
        have hle : (decodedOf (·.1)
            (instructions d locals pool start codeEnd stop fuel (p :: done) c₁)).length ≤
              (p :: done).length + min (codeEnd - c₁.offset) c₁.rest.length :=
          ih (hthrough.valid hc)
        rw [List.length_cons] at hle
        omega
      · simp [decodedOf]

/-- **Code** does not hold more instructions than bytes, whatever length is declared for it. -/
theorem length_code_le {length : Nat} (hc : c.Valid) :
    (decodedOf id (code d locals pool bounds c length)).length ≤ min length c.rest.length := by
  have hall {stop fuel : Nat} {r : Except CodeError (List Placed)}
      (h : instructions d locals pool c.offset (c.offset + length) stop fuel [] c = r) :
      (decodedOf (·.1) r).length ≤ min length c.rest.length := by
    have hle : (decodedOf (·.1)
        (instructions d locals pool c.offset (c.offset + length) stop fuel [] c)).length ≤
          ([] : List Placed).length + min (c.offset + length - c.offset) c.rest.length :=
      length_instructions_le hc
    rwa [Nat.add_sub_cancel_left, List.length_nil, Nat.zero_add, h] at hle
  unfold code
  dsimp only
  split
  · rename_i e he
    exact hall he
  · rename_i placed hplaced
    have hle : placed.length ≤ min length c.rest.length := by
      have := hall hplaced
      rwa [decodedOf, List.length_map] at this
    split_ifs
    · simpa [decodedOf] using hle
    · split
      · exact (List.length_take_le' _ _).trans (by simpa using hle)
      · simpa [decodedOf] using hle

/-! ## Heads and tables -/

/-- A list has no more members than there are bytes if each takes one at least. -/
theorem length_le_sum_flatMap {α : Type} {sizes : α → List Nat} (h : ∀ a, 0 < (sizes a).sum)
    (as : List α) : as.length ≤ (as.flatMap sizes).sum := by
  induction as with
  | nil => exact Nat.zero_le _
  | cons a as ih =>
    have := h a
    rw [List.flatMap_cons, List.sum_append, List.length_cons]
    omega

/-- The bytes that the head of a function takes at least: the size of a name, the counts of arguments
and locals, the size of the stack, the flags, the count of constants and the length of the code. -/
def leastHead : Nat := 4 + 1 + 1 + 1 + 1 + 1 + 4

theorem leastHead_le_sum (d : Dialect) (h : Header) (pool : List Constant) :
    leastHead + h.localNames.length + pool.length ≤ (h.sizes d ++ d.poolSizes pool ++ [4]).sum := by
  have hslot := (d.widths.operand .slot).bytes_pos
  have hcount := (d.widths.operand .count).bytes_pos
  have hconstant := (d.widths.operand .constant).bytes_pos
  have hnames : h.localNames.length ≤ (h.localNames.flatMap Reading.textSizes).sum :=
    length_le_sum_flatMap (fun s => by simp [Reading.textSizes]) _
  have hpool : pool.length ≤ (pool.flatMap (·.sizes d)).sum :=
    length_le_sum_flatMap (fun c => by cases c <;> simp [Constant.sizes]) _
  simp only [Header.sizes, Dialect.poolSizes, Reading.textSizes, leastHead, Dialect.operandWidth,
    List.sum_append, List.sum_cons, List.sum_nil] at hnames ⊢
  omega

theorem length_lines_le {lines : List (Nat × Nat)} (hline : d.lineWidth ≠ 0) {table : List UInt8}
    (hwritten : Encode.lineTable d lines = .ok table) : lines.length ≤ table.length := by
  have hsum := (lineTable_frames_none (o := 0) hline hwritten).sum
  have hpos := (d.widths.operand .jump).bytes_pos
  have hentries : lines.length ≤
      (lines.flatMap fun _ => [d.operandWidth .jump, d.lineWidth.toNat]).sum :=
    length_le_sum_flatMap (fun _ => by simp [Dialect.operandWidth]; omega) _
  rw [Dialect.lineSizes, if_neg hline, List.sum_cons] at hsum
  omega

/-! ## Functions -/

/-- What is left of a function behind its head takes a byte for every instruction and line. -/
theorem body_extent {h : Header} {length : Nat} (hc : c.Valid)
    (hrun : (body d bounds h pool length).runFrom c = (.ok f, c')) :
    ∃ bs, c.Through bs c' ∧ f.instructions.length + f.lines.length ≤ bs.length ∧
      f.header = h ∧ f.constants = pool ∧ f.codeOffset = c.offset := by
  obtain ⟨_, _, hget, hrun⟩ := runFrom_bind_ok hrun
  cases hget
  have hle : (decodedOf id (code d h.locals pool bounds c length)).length ≤ min length c.rest.length :=
    length_code_le hc
  split at hrun
  rename_i found error hfound
  have hlength : found.length ≤ min length c.rest.length := by
    cases hcode : code d h.locals pool bounds c length with
    | error e =>
      rw [hcode] at hfound hle
      cases hfound
      exact hle
    | ok is =>
      rw [hcode] at hfound hle
      cases hfound
      rwa [decodedOf, List.map_id] at hle
  dsimp only at hrun
  split at hrun
  · obtain ⟨_, _, hset, hrun⟩ := runFrom_bind_ok hrun
    cases hset
    cases hrun
    refine ⟨_, Cursor.through_advance (Nat.le_refl _), ?_, rfl, rfl, rfl⟩
    rw [List.take_length]
    simp only [List.length_nil]
    omega
  · rename_i hfits
    have hthrough := Cursor.through_advance (c := c) (n := length) (by omega)
    have htake : (c.rest.take length).length = length := by
      rw [List.length_take]
      omega
    obtain ⟨_, _, hset, hrun⟩ := runFrom_bind_ok hrun
    cases hset
    split at hrun
    · cases hrun
      exact ⟨_, hthrough, by simp only [List.length_nil]; omega, rfl, rfl, rfl⟩
    · rename_i hline
      obtain ⟨lines, c₁, htable, hrun⟩ := runFrom_bind_ok hrun
      cases hrun
      obtain ⟨table, hthrough', hwritten⟩ := lineTable_consumes hline _ (hthrough.valid hc) htable
      refine ⟨_, hthrough.trans hthrough', ?_, rfl, rfl, rfl⟩
      have hlines := length_lines_le hline hwritten
      have happlied : (if error.isNone then applyLines found lines else found).length =
          found.length := by
        split
        · exact (applyLines_forall₂ _ _).length_eq.symm
        · rfl
      rw [List.length_append, happlied]
      dsimp only
      omega

/-- **A function** takes the bytes of its head and one for every instruction and line. -/
theorem function_extent (hc : c.Valid)
    (hrun : (function d bounds functionCount index).runFrom c = (.ok f, c')) :
    ∃ bs, c.Through bs c' ∧ leastHead + f.items ≤ bs.length ∧
      f.codeOffset = c.offset + (f.headSizes d).sum := by
  rw [function_eq] at hrun
  obtain ⟨⟨h, pool, length⟩, c₁, hhead, hbody⟩ := runFrom_bind_ok hrun
  obtain ⟨head, sizes, hthrough, hframes, rfl⟩ := functionHead_framed d functionCount index hc hhead
  obtain ⟨bs, hthrough', hle, rfl, rfl, hplace⟩ := body_extent (hthrough.valid hc) hbody
  have hsum := hframes.sum
  refine ⟨_, hthrough.trans hthrough', ?_, ?_⟩
  · have hleast := leastHead_le_sum d f.header f.constants
    rw [hsum] at hleast
    rw [List.length_append, Function.items]
    omega
  · rw [hplace, hthrough.offset, Function.headSizes, hsum]

/-- All functions that are decoded stand on bytes of their own. -/
theorem sum_items_functions_le {n : Nat} (hc : c.Valid) :
    ((functions d bounds functionCount n index c).1.map fun f => leastHead + f.items).sum ≤
      c.rest.length := by
  induction n generalizing index c with
  | zero => exact Nat.zero_le _
  | succ n ih =>
    unfold functions
    split
    · exact Nat.zero_le _
    · rename_i f c₁ hrun
      obtain ⟨bs, hthrough, hle, -⟩ := function_extent hc hrun
      have hrest := congrArg List.length hthrough.rest
      rw [List.length_append] at hrest
      have hthis : ([f].map fun f => leastHead + f.items).sum ≤ c.rest.length := by
        rw [List.map_singleton, List.sum_singleton]
        omega
      have hall : ((f :: (functions d bounds functionCount n (index + 1) c₁).1).map fun f =>
          leastHead + f.items).sum ≤ c.rest.length := by
        have hle' : ((functions d bounds functionCount n (index + 1) c₁).1.map fun f =>
            leastHead + f.items).sum ≤ c₁.rest.length :=
          ih (hthrough.valid hc)
        rw [List.map_cons, List.sum_cons]
        omega
      split
      · split
        · exact hthis
        · exact hall
      · exact hall

end Decode

namespace Script

/-- **The functions** that are decoded, however many a payload declares, take no more bytes than it
has. -/
theorem sum_items_le (d : Dialect) (payload : List UInt8) (bounds : Bounds) :
    ((decode d payload bounds).functions.map fun f => Decode.leastHead + f.items).sum ≤
      payload.length := by
  unfold decode
  split
  · exact Nat.zero_le _
  · rename_i p c hpreamble
    have hvalid := Cursor.valid_ofBytes payload
    obtain ⟨count, base, name, hthrough, -⟩ := Decode.preamble_through hvalid hpreamble
    have hrest := congrArg List.length hthrough.rest
    rw [List.length_append] at hrest
    refine (Decode.sum_items_functions_le (hthrough.valid hvalid)).trans ?_
    have hpayload : (Cursor.ofBytes payload).rest.length = payload.length := rfl
    omega

/-- The instructions alone take no more bytes than the payload has. -/
theorem sum_extents_le (d : Dialect) (payload : List UInt8) :
    ((decode d payload).functions.map fun f => Decode.leastHead + f.instructions.length).sum ≤
      payload.length := by
  refine (List.sum_le_sum fun f _ => ?_).trans (sum_items_le d payload {})
  unfold Function.items
  omega

end Script

end Unscript
