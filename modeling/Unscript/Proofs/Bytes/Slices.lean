import Unscript.Proofs.Bytes.Framing

/-!
# Fields by their offsets

A byte string that is read from its front in fields of known sizes: each field is a slice of the
string, and a read fails exactly when its slice goes past the end.

* `Bytes.slice`: the bytes of a field, by its offset and its size.

Results:
* `Reading.runFrom_take_ofBytes`, `Reading.runFrom_uint_ofBytes`: what a read at an offset gives.
* `Bytes.slice_append`: the slices of a byte string that was put together.
-/

namespace Unscript

namespace Bytes

variable {blob front bs rest : List UInt8} {start size : Nat}

/-- The bytes of a field, by its offset and its size. -/
def slice (blob : List UInt8) (start size : Nat) : List UInt8 :=
  (blob.drop start).take size

theorem length_slice (h : start + size ≤ blob.length) : (slice blob start size).length = size := by
  unfold slice
  rw [List.length_take, List.length_drop]
  omega

/-- A slice and what follows it. -/
theorem slice_append_drop (blob : List UInt8) (start size : Nat) :
    slice blob start size ++ blob.drop (start + size) = blob.drop start := by
  unfold slice
  rw [← List.drop_drop, List.take_append_drop]

/-- The slice of a byte string that was put together. -/
theorem slice_append (hstart : front.length = start) (hsize : bs.length = size) :
    slice (front ++ (bs ++ rest)) start size = bs := by
  subst hstart hsize
  unfold slice
  rw [List.drop_left, List.take_left]

/-- A slice of one byte is the number of that byte. -/
theorem toNat_slice_one (h : start < blob.length) :
    toNat (slice blob start 1) = (blob.getD start 0).toNat := by
  unfold slice
  rw [List.drop_eq_getElem_cons h, List.take_succ_cons, List.take_zero,
    List.getD_eq_getElem?_getD, List.getElem?_eq_getElem h]
  rfl

end Bytes

namespace Reading

open Bytes (slice)

theorem advance_ofBytes (blob : List UInt8) (start size : Nat) {limit : Option Int} :
    (Cursor.ofBytes blob start limit).advance size = Cursor.ofBytes blob (start + size) limit := by
  unfold Cursor.advance Cursor.ofBytes
  rw [List.drop_drop]

section Fields

variable {α : Type} {w : Int} {n : Nat} (blob : List UInt8) (start : Nat) (field : String)
  (hw : w = n)

include hw

/-- **Bytes** at an offset are taken when they end by the end of the byte string. -/
theorem runFrom_take_ofBytes : (take w field).runFrom (Cursor.ofBytes blob start) =
    if start + n ≤ blob.length then (.ok (slice blob start n), Cursor.ofBytes blob (start + n))
    else (.error ⟨.truncated field, start⟩, Cursor.ofBytes blob start) := by
  subst hw
  have hbound : (Cursor.ofBytes blob start).bound none = blob.length := rfl
  have hoffset : (Cursor.ofBytes blob start).offset = start := rfl
  by_cases h : start + n ≤ blob.length
  · rw [if_pos h]
    have hthrough : (Cursor.ofBytes blob start).Through (slice blob start n)
        (Cursor.ofBytes blob (start + n)) := by
      rw [← advance_ofBytes]
      exact Cursor.through_advance (by simp only [Cursor.ofBytes, List.length_drop]; omega)
    refine runFrom_take hthrough (congrArg _ (Bytes.length_slice h)) ?_
    rw [hbound]
    exact_mod_cast h
  · rw [if_neg h]
    refine runFrom_take_of_lt field (Int.natCast_nonneg n) ?_
    rw [hbound, hoffset]
    omega

/-- **Numbers** at an offset. -/
theorem runFrom_uint_ofBytes : (uint w field).runFrom (Cursor.ofBytes blob start) =
    if start + n ≤ blob.length then
      (.ok (Bytes.toNat (slice blob start n)), Cursor.ofBytes blob (start + n))
    else (.error ⟨.truncated field, start⟩, Cursor.ofBytes blob start) := by
  unfold uint
  rw [runFrom_bind, runFrom_take_ofBytes blob start field hw]
  split_ifs <;> rfl

/-- Bytes at an offset, and what is read after them. -/
theorem runFrom_take_bind (f : List UInt8 → Reading α) :
    (take w field >>= f).runFrom (Cursor.ofBytes blob start) =
      if start + n ≤ blob.length then
        (f (slice blob start n)).runFrom (Cursor.ofBytes blob (start + n))
      else (.error ⟨.truncated field, start⟩, Cursor.ofBytes blob start) := by
  rw [runFrom_bind, runFrom_take_ofBytes blob start field hw]
  split_ifs <;> rfl

/-- A number at an offset, and what is read after it. -/
theorem runFrom_uint_bind (f : Nat → Reading α) :
    (uint w field >>= f).runFrom (Cursor.ofBytes blob start) =
      if start + n ≤ blob.length then
        (f (Bytes.toNat (slice blob start n))).runFrom (Cursor.ofBytes blob (start + n))
      else (.error ⟨.truncated field, start⟩, Cursor.ofBytes blob start) := by
  rw [runFrom_bind, runFrom_uint_ofBytes blob start field hw]
  split_ifs <;> rfl

end Fields

end Reading

end Unscript
