import Unscript.Proofs.Registry.Concrete
import Unscript.Proofs.Script.Extent

/-!
# Where decoded functions stand

The functions that are decoded of a payload stand one behind the other, each at a place inside the
payload at which nothing else is read, and together they hold no more than the payload has bytes.
This is so whatever counts the payload declares, however its code is broken and however decoding is
bounded. The loop over the instructions ends because each of them takes a byte, so its fuel never
runs out.

* `Function.start`: the place at which the head of a function begins.
* `Decode.ReadBehind`: a function is what is read at its start, behind a cursor.
* `Decode.Before`: one function ends before another one starts.

Results:
* `Decode.instructions_fuel`: more fuel than bytes makes no difference.
* `Decode.functions_apart`: the functions stand one behind the other.
* `Script.decode_placed`: all of this for a payload.
-/

namespace Unscript

/-- The place in the payload at which the head of a function begins. -/
def Function.start (d : Dialect) (f : Function) : Nat :=
  f.codeOffset - (f.headSizes d).sum

namespace Decode

open Reading (runFrom_bind_ok)

variable {d : Dialect} {locals start codeEnd stop functionCount index : Nat} {pool : List Constant}
  {bounds : Bounds} {c c' : Cursor} {f : Function}

/-! ## Fuel -/

/-- **Fuel.** With more fuel than there are bytes, the loop over the instructions does not end for
want of it. -/
theorem instructions_fuel {fuel fuel' : Nat} {done : List Placed} (hc : c.Valid)
    (hfuel : c.rest.length < fuel) (hfuel' : c.rest.length < fuel') :
    instructions d locals pool start codeEnd stop fuel done c =
      instructions d locals pool start codeEnd stop fuel' done c := by
  induction fuel generalizing fuel' done c with
  | zero => exact absurd hfuel (Nat.not_lt_zero _)
  | succ fuel ih =>
    obtain ⟨fuel', rfl⟩ : ∃ m, fuel' = m + 1 := ⟨fuel' - 1, by omega⟩
    unfold instructions
    split
    · rfl
    · split
      · rename_i i c₁ hrun
        obtain ⟨bs, hthrough, -, -, hread⟩ := instruction_through hc hrun
        have hpos := hread.size_pos
        have hrest := congrArg List.length hthrough.rest
        rw [List.length_append] at hrest
        exact ih (hthrough.valid hc) (by omega) (by omega)
      · rfl

/-! ## Functions -/

/-- A function is what is read at its start, behind a cursor, and stands on the bytes there. -/
structure ReadBehind (d : Dialect) (bounds : Bounds) (functionCount : Nat) (c : Cursor)
    (f : Function) : Prop where
  read : ∃ bs c₀ c₁, c.Through bs c₀ ∧ c₀.offset = f.start d ∧
    (function d bounds functionCount f.header.index).runFrom c₀ = (.ok f, c₁)
  within : f.start d + (leastHead + f.items) ≤ c.offset + c.rest.length

theorem ReadBehind.le_start (h : ReadBehind d bounds functionCount c f) : c.offset ≤ f.start d := by
  obtain ⟨bs, c₀, -, hthrough, hstart, -⟩ := h.read
  rw [← hstart, hthrough.offset]
  exact Nat.le_add_right _ _

theorem ReadBehind.of_through {bs : List UInt8} (hthrough : c.Through bs c')
    (h : ReadBehind d bounds functionCount c' f) : ReadBehind d bounds functionCount c f := by
  obtain ⟨bs', c₀, c₁, hthrough', hstart, hrun⟩ := h.read
  refine ⟨⟨bs ++ bs', c₀, c₁, hthrough.trans hthrough', hstart, hrun⟩, ?_⟩
  have hwithin := h.within
  have hrest := congrArg List.length hthrough.rest
  rw [hthrough.offset] at hwithin
  rw [List.length_append] at hrest
  omega

/-- One function ends before the other one starts. -/
def Before (d : Dialect) (f g : Function) : Prop :=
  f.start d + (leastHead + f.items) ≤ g.start d

/-- **The functions** that are decoded behind a cursor stand one behind the other. -/
theorem functions_apart {n : Nat} (hc : c.Valid) :
    (functions d bounds functionCount n index c).1.Pairwise (Before d) ∧
      ∀ f ∈ (functions d bounds functionCount n index c).1,
        ReadBehind d bounds functionCount c f := by
  induction n generalizing index c with
  | zero => exact ⟨.nil, fun _ hf => absurd hf List.not_mem_nil⟩
  | succ n ih =>
    unfold functions
    split
    · exact ⟨.nil, fun _ hf => absurd hf List.not_mem_nil⟩
    · rename_i f c₁ hrun
      obtain ⟨bs, hthrough, hle, hplace⟩ := function_extent hc hrun
      have hstart : f.start d = c.offset := by
        rw [Function.start, hplace, Nat.add_sub_cancel]
      have hrest := congrArg List.length hthrough.rest
      rw [List.length_append] at hrest
      have hindex : f.header.index = index := function_index d bounds functionCount index hrun
      have hthis : ReadBehind d bounds functionCount c f :=
        ⟨⟨[], c, c₁, .refl c, hstart.symm, hindex ▸ hrun⟩, by omega⟩
      obtain ⟨hapart, hbehind⟩ := @ih (index + 1) c₁ (hthrough.valid hc)
      have hall : (f :: (functions d bounds functionCount n (index + 1) c₁).1).Pairwise (Before d) ∧
          ∀ g ∈ f :: (functions d bounds functionCount n (index + 1) c₁).1,
            ReadBehind d bounds functionCount c g := by
        refine ⟨List.pairwise_cons.mpr ⟨fun g hg => ?_, hapart⟩,
          List.forall_mem_cons.mpr ⟨hthis, fun g hg => (hbehind g hg).of_through hthrough⟩⟩
        have hnext := (hbehind g hg).le_start
        rw [hthrough.offset] at hnext
        unfold Before
        omega
      split
      · split
        · exact ⟨List.pairwise_singleton _ _, List.forall_mem_singleton.mpr hthis⟩
        · exact hall
      · exact hall

end Decode

theorem Cursor.ofBytes_eq_advance (payload : List UInt8) (n : Nat) :
    Cursor.ofBytes payload n = (Cursor.ofBytes payload).advance n := by
  simp [Cursor.ofBytes, Cursor.advance]

namespace Script

open Decode

variable {d : Dialect} {payload : List UInt8} {bounds : Bounds}

theorem functions_decode_apart (d : Dialect) (payload : List UInt8) (bounds : Bounds) :
    (decode d payload bounds).functions.Pairwise (Before d) ∧
      ∀ f ∈ (decode d payload bounds).functions,
        ReadBehind d bounds (decode d payload bounds).functionCount (Cursor.ofBytes payload) f := by
  unfold decode
  split
  · exact ⟨.nil, fun _ hf => absurd hf List.not_mem_nil⟩
  · rename_i p c hpreamble
    have hvalid := Cursor.valid_ofBytes payload
    obtain ⟨count, base, name, hthrough, -⟩ := preamble_through hvalid hpreamble
    have hfunctions (n : Nat) :=
      @functions_apart d p.functionCount 0 bounds c n (hthrough.valid hvalid)
    exact ⟨(hfunctions _).1, fun f hf => ((hfunctions _).2 f hf).of_through hthrough⟩

/-- **Decoding is bounded by the payload**, whatever it declares and however it is broken. The
functions, and the names of locals, the constants, the instructions and the lines in them, are
together no more than the payload has bytes. The functions start at increasing offsets inside the
payload, and each is what is read at its offset. The loop over the instructions, the only one that
runs on fuel, never ends for want of it. -/
theorem decode_placed (d : Dialect) (payload : List UInt8) (bounds : Bounds) :
    (decode d payload bounds).functions.length +
        ((decode d payload bounds).functions.map (·.items)).sum ≤ payload.length ∧
      ((decode d payload bounds).functions.map (·.start d)).Pairwise (· < ·) ∧
      (∀ f ∈ (decode d payload bounds).functions, f.start d < payload.length ∧
        ((function d bounds (decode d payload bounds).functionCount f.header.index).runFrom
          (Cursor.ofBytes payload (f.start d))).1 = .ok f) ∧
      ∀ locals pool start codeEnd stop fuel c, c.Valid → c.rest.length < fuel →
        instructions d locals pool start codeEnd stop fuel [] c =
          instructions d locals pool start codeEnd stop (c.rest.length + 1) [] c := by
  obtain ⟨hapart, hbehind⟩ := functions_decode_apart d payload bounds
  refine ⟨?_, ?_, fun f hf => ⟨?_, ?_⟩, ?_⟩
  · calc (decode d payload bounds).functions.length +
          ((decode d payload bounds).functions.map (·.items)).sum
        = ((decode d payload bounds).functions.map fun f => 1 + f.items).sum := by
          rw [List.sum_map_add, List.map_const', List.sum_replicate_nat, Nat.mul_one]
      _ ≤ ((decode d payload bounds).functions.map fun f => leastHead + f.items).sum :=
          List.sum_le_sum fun f _ => Nat.add_le_add_right (by decide) _
      _ ≤ payload.length := sum_items_le d payload bounds
  · rw [List.pairwise_map]
    exact hapart.imp fun h => by unfold Before leastHead at h; omega
  · have hwithin := (hbehind f hf).within
    have hoffset : (Cursor.ofBytes payload).offset = 0 := rfl
    have hrest : (Cursor.ofBytes payload).rest.length = payload.length := rfl
    unfold leastHead at hwithin
    omega
  · obtain ⟨bs, c₀, c₁, hthrough, hstart, hrun⟩ := (hbehind f hf).read
    have hplace : c₀.offset = bs.length := hthrough.offset.trans (Nat.zero_add _)
    rw [← hstart, hplace, Cursor.ofBytes_eq_advance, ← hthrough.eq_advance, hrun]
  · exact fun _ _ _ _ _ fuel c hc hfuel => instructions_fuel hc hfuel (Nat.lt_succ_self _)

/-- Two functions of the first dialect with line tables. The first has three operations and a line
that starts at the second of them; the second declares nine bytes of code, of which three are there. -/
def cutShort : List UInt8 :=
  [2, 0, 0, 0, 0, 0, 0, 0, 0, 0, 0, 0, 0, 0, 0, 1, 0, 0, 3, 0, 0, 0, 0, 0, 0, 1, 0, 1, 0, 0, 0, 5, 0,
    0, 0, 0, 0, 0, 0, 0, 0, 0, 0, 0, 9, 0, 0, 0, 0, 0, 0]

theorem decode_placed_cutShort :
    (decode Registry.firstLined cutShort).functions.map (·.start Registry.firstLined) = [6, 33] ∧
      (decode Registry.firstLined cutShort).functions.length +
        ((decode Registry.firstLined cutShort).functions.map (·.items)).sum ≤ cutShort.length ∧
      (∀ f ∈ (decode Registry.firstLined cutShort).functions,
        ((function Registry.firstLined {} 2 f.header.index).runFrom
          (Cursor.ofBytes cutShort (f.start Registry.firstLined))).1 = .ok f) ∧
      instructions Registry.firstLined 0 [] 0 51 51 1000 [] (Cursor.ofBytes cutShort) =
        instructions Registry.firstLined 0 [] 0 51 51 52 [] (Cursor.ofBytes cutShort) := by
  obtain ⟨hsum, -, hread, hfuel⟩ := decode_placed Registry.firstLined cutShort {}
  have hcount : (decode Registry.firstLined cutShort).functionCount = 2 := by decide +kernel
  refine ⟨by decide +kernel, hsum, fun f hf => hcount ▸ (hread f hf).2, ?_⟩
  exact hfuel 0 [] 0 51 51 1000 _ (Cursor.valid_ofBytes cutShort) (by decide)

end Script

end Unscript
