import Unscript.Proofs.Script.Instructions
import Unscript.Proofs.Script.Payload

/-!
# How many functions are decoded

A payload says at its beginning how many functions it has. They are decoded in order, and all of them
unless something is wrong with the payload itself.

* `Script.declaredCount`: what the payload says.

Results:
* `Script.functionCount_decode_eq`: it is what the unit says.
* `Script.functionCount_decode_lt`: it fits four bytes in a registered dialect.
* `Script.length_functions_le`, `Script.length_functions_of_fault`: how many are decoded.
* `Script.index_of_getElem?`: the functions know their places.
-/

namespace Unscript

namespace Decode

variable {d : Dialect} {bounds : Bounds}

theorem length_functions_le (d : Dialect) (bounds : Bounds) (functionCount n index : Nat)
    (c : Cursor) : (functions d bounds functionCount n index c).1.length ≤ n := by
  induction n generalizing index c with
  | zero => exact Nat.le_refl _
  | succ n ih =>
    unfold functions
    split
    · exact Nat.zero_le _
    · have hrest := fun c => ih (index + 1) c
      split
      · split
        · exact Nat.succ_le_succ (Nat.zero_le _)
        · exact Nat.succ_le_succ (hrest _)
      · exact Nat.succ_le_succ (hrest _)

/-- Without a fault all functions are decoded. -/
theorem length_functions_of_fault {functionCount n index : Nat} {c : Cursor}
    (h : (functions d bounds functionCount n index c).2.1 = none) :
    (functions d bounds functionCount n index c).1.length = n := by
  induction n generalizing index c with
  | zero => rfl
  | succ n ih =>
    unfold functions at h ⊢
    split
    · rename_i e c₁ hread
      rw [hread] at h
      cases h
    · rename_i f c₁ hread
      rw [hread] at h
      dsimp only at h
      split
      · rename_i e he
        rw [he] at h
        dsimp only at h
        split
        · rename_i hbeyond
          rw [if_pos hbeyond] at h
          cases h
        · rename_i hwithin
          rw [if_neg hwithin] at h
          exact congrArg Nat.succ (ih h)
      · rename_i he
        rw [he] at h
        exact congrArg Nat.succ (ih h)

/-- A function keeps the index that it is read with. -/
theorem function_index (d : Dialect) (bounds : Bounds) (functionCount index : Nat) :
    (function d bounds functionCount index).Ensures fun f => f.header.index = index := by
  have hheader : (header d index).Ensures fun h => h.index = index := by
    have hrest (r : Reading (List String)) (k : List String → Header)
        (hk : ∀ names, (k names).index = index) : (r >>= fun names => pure (k names)).Ensures
          fun h => h.index = index := .after fun names => .pure (hk names)
    have hguard {c : Prop} [Decidable c] (offset : Nat) (fault : DecodeFault)
        (r : Unit → Reading Header) (hr : (r ()).Ensures fun h => h.index = index) :
        (if c then Reading.failAt offset fault >>= r else r ()).Ensures
          fun h => h.index = index := by
      split
      · exact .bind (Q := fun _ => False) .failAt fun _ hno => hno.elim
      · exact hr
    unfold header
    refine .after fun name => .after fun position => .after fun arguments => .after fun locals => ?_
    refine hguard _ _ _ (.after fun stack => .after fun position => .after fun flags => ?_)
    refine hguard _ _ _ ?_
    dsimp only
    split <;> exact hrest _ _ fun names => rfl
  refine .bind hheader fun h hindex => .after fun pool => .after fun length => .after fun c => ?_
  dsimp only
  split
  · exact .after fun _ => .pure hindex
  · refine .after fun _ => ?_
    split
    · exact .pure hindex
    · exact .after fun lines => .pure hindex

theorem index_of_getElem? {functionCount n index i : Nat} {c : Cursor} {f : Function}
    (h : (functions d bounds functionCount n index c).1[i]? = some f) :
    f.header.index = index + i := by
  induction n generalizing index i c with
  | zero => cases h
  | succ n ih =>
    unfold functions at h
    split at h
    · cases h
    · rename_i g c₁ hread
      have hg : g.header.index = index := function_index d bounds functionCount index hread
      have hrest {c : Cursor} (h : (g :: (functions d bounds functionCount n (index + 1) c).1)[i]? =
          some f) : f.header.index = index + i := by
        cases i with
        | zero =>
          cases h
          exact hg
        | succ i =>
          rw [ih h]
          omega
      split at h
      · split at h
        · cases i with
          | zero =>
            cases h
            exact hg
          | succ i => cases h
        · exact hrest h
      · exact hrest h

/-- A count of functions fits its width. -/
theorem functionCount_lt {c : Cursor} (hc : c.Valid) :
    (preamble d c).1.functionCount < 256 ^ d.operandWidth .count := by
  have hpos : 0 < 256 ^ d.operandWidth .count := Nat.pow_pos (by decide)
  unfold preamble
  split
  · exact hpos
  · rename_i n c₁ hcount
    have hlt : n < 256 ^ d.operandWidth .count := by
      obtain ⟨bs, -, hlen, rfl, -⟩ := Reading.uint_ok hc hcount
      have := Bytes.toNat_lt bs
      rwa [Int.natCast_inj.mp hlen] at this
    split
    · exact hlt
    · split
      · split <;> exact hlt
      · exact hlt

end Decode

namespace Script

variable {d : Dialect} {payload : List UInt8}

/-- The count of functions at the beginning of a payload; zero if it is cut short there. -/
def declaredCount (d : Dialect) (payload : List UInt8) : Nat :=
  let width := d.operandWidth .count
  if width ≤ payload.length then Bytes.toNat (payload.take width) else 0

theorem functionCount_decode (d : Dialect) (payload : List UInt8) (bounds : Bounds) :
    (decode d payload bounds).functionCount =
      (Decode.preamble d (Cursor.ofBytes payload)).1.functionCount := by
  unfold decode
  split <;> simp_all

/-- A unit has as many functions as its payload says. -/
theorem functionCount_decode_eq (d : Dialect) (payload : List UInt8) (bounds : Bounds) :
    (decode d payload bounds).functionCount = declaredCount d payload := by
  have hread : ((Reading.uint (d.operandWidth .count) "function count").runFrom
      (Cursor.ofBytes payload)).1.toOption.getD 0 = declaredCount d payload := by
    have hbound : (Cursor.ofBytes payload).bound none = payload.length := rfl
    unfold declaredCount Reading.uint
    rw [Reading.runFrom_bind]
    by_cases hfits : d.operandWidth .count ≤ payload.length
    · have hthrough := Cursor.through_advance (c := Cursor.ofBytes payload) hfits
      have hlen : (payload.take (d.operandWidth .count)).length = d.operandWidth .count := by
        rw [List.length_take, Nat.min_eq_left hfits]
      have hlimit := hthrough.offset
      rw [Reading.runFrom_take hthrough (by exact_mod_cast hlen) ?_, if_pos hfits]
      · rfl
      · rw [hlimit, hbound]
        simp [Cursor.ofBytes, hfits]
    · rw [Reading.runFrom_take_of_lt _ (Int.natCast_nonneg _) ?_, if_neg hfits]
      · rfl
      · rw [hbound]
        simp only [Cursor.ofBytes]
        omega
  rw [functionCount_decode, ← hread]
  unfold Decode.preamble
  split
  · rename_i e c h
    rw [h]
    rfl
  · rename_i n c h
    rw [h]
    split
    · rfl
    · split
      · split <;> rfl
      · rfl

/-- A unit of a registered dialect has fewer functions than four bytes can count. -/
theorem functionCount_decode_lt (hd : d.Registered) (payload : List UInt8) (bounds : Bounds) :
    (decode d payload bounds).functionCount < 2 ^ 32 := by
  rw [functionCount_decode]
  calc _ < 256 ^ d.operandWidth .count := Decode.functionCount_lt (Cursor.valid_ofBytes payload)
    _ ≤ 256 ^ 4 := Nat.pow_le_pow_right (by decide) hd.countWidth_le
    _ = 2 ^ 32 := by decide

/-- No more functions are decoded than there are, nor than were asked for. -/
theorem length_functions_decode_le (d : Dialect) (payload : List UInt8) (limit : Option Nat)
    (count : Nat) : (decode d payload ⟨limit, some count⟩).functions.length ≤
      min (decode d payload ⟨limit, some count⟩).functionCount count := by
  unfold decode
  split
  · exact Nat.zero_le _
  · exact Decode.length_functions_le ..

/-- No more functions are decoded than there are. -/
theorem length_functions_le (d : Dialect) (payload : List UInt8) :
    (decode d payload).functions.length ≤ (decode d payload).functionCount := by
  unfold decode
  split
  · exact Nat.zero_le _
  · exact Decode.length_functions_le ..

/-- All functions are decoded if nothing is wrong with the payload itself. -/
theorem length_functions_of_fault (h : (decode d payload).fault = none) :
    (decode d payload).functions.length = (decode d payload).functionCount := by
  unfold decode at h ⊢
  split at h
  · cases h
  · rename_i p c hpreamble
    have hfault : (Decode.functions d {} p.functionCount p.functionCount 0 c).2.1 = none := by
      by_contra hne
      dsimp only at h
      rw [if_neg (by simp [hne])] at h
      exact hne h
    exact Decode.length_functions_of_fault hfault

/-- **The functions** of a unit know their places. -/
theorem index_of_getElem? {bounds : Bounds} {i : Nat} {f : Function}
    (h : (decode d payload bounds).functions[i]? = some f) : f.header.index = i := by
  unfold decode at h
  split at h
  · cases h
  · rw [Decode.index_of_getElem? h, Nat.zero_add]

theorem length_functions_of_complete (h : (decode d payload).complete) :
    (decode d payload).functions.length = (decode d payload).functionCount :=
  length_functions_of_fault (Option.isNone_iff_eq_none.mp ((Bool.and_eq_true _ _).mp h).1)

end Script

end Unscript
