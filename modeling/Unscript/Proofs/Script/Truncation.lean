import Unscript.Proofs.Script.Payload

/-!
# Payloads that are cut off or go on

A payload that is cut off fails at the field with the cut, and keeps all that ends before it. A
payload that goes on is decoded, but for what follows.

Results:
* `Script.decode_cut`: what is decoded of a part of a payload, and of a payload with bytes behind it.
-/

namespace Unscript.Script

/-- **What is decoded of a payload that is cut off, or goes on.** If a payload of a registered dialect
is decoded to its end, its fields make it up, and after a cut

* the error is at the start of the first field that extends beyond the cut;
* the functions that end by then are decoded, and if the cut falls into the code of one, so is
  that, up to the last instruction that ends by then; no other function is.

When bytes follow the payload, the functions are the same, and the error is where the bytes
start. -/
theorem decode_cut {d : Dialect} (hd : d.Registered) {payload : List UInt8}
    (h : (decode d payload).complete) :
    (decode d payload).sizes.sum = payload.length ∧
    (∀ k < payload.length, ∃ e, (decode d (payload.take k)).error? = some e ∧
      Straddles (decode d payload).sizes k e.offset ∧
      (decode d (payload.take k)).functions =
        (decode d payload).functions.filter (·.ending d ≤ k) ++
          ((decode d payload).functions.filter (·.cutAt k)).map (·.upTo k e)) ∧
    ∀ extra ≠ [], (decode d (payload ++ extra)).functions = (decode d payload).functions ∧
      ∃ e, (decode d (payload ++ extra)).error? = some e ∧ e.offset = payload.length := by
  obtain ⟨p, fs, head, bs, rfl, hlaid, hdecode⟩ := Decode.exists_laid hd.regular h
  rw [hdecode]
  refine ⟨hlaid.sum_sizes, fun k hk => ?_, fun extra hextra => ?_⟩
  · obtain ⟨fault, hcut, hfault, hfunctions⟩ := hlaid.decode_take hk
    refine ⟨fault.error, ?_, hcut, hfunctions⟩
    unfold error?
    rw [hfault]
    rfl
  · rw [hlaid.decode_append, if_neg hextra]
    exact ⟨rfl, _, rfl, rfl⟩

/-- A unit of the oldest dialect whose one function loads a constant in its second instruction, cut
off in the operand. -/
theorem decode_cut_load :
    let unit := decode Registry.oldest
      [1, 0, 0, 0, 0, 0, 0, 0, 0, 0, 0, 0, 0, 0, 0, 1, 0, 0, 4, 0, 0, 0, 0, 1, 0, 0]
    let part := decode Registry.oldest
      [1, 0, 0, 0, 0, 0, 0, 0, 0, 0, 0, 0, 0, 0, 0, 1, 0, 0, 4, 0, 0, 0, 0, 1, 0]
    unit.complete ∧ ∃ e, part.error? = some e ∧ Straddles unit.sizes 25 e.offset ∧
      part.functions = unit.functions.filter (·.ending Registry.oldest ≤ 25) ++
        (unit.functions.filter (·.cutAt 25)).map (·.upTo 25 e) := by
  have hcomplete : (decode Registry.oldest
      [1, 0, 0, 0, 0, 0, 0, 0, 0, 0, 0, 0, 0, 0, 0, 1, 0, 0, 4, 0, 0, 0, 0, 1, 0, 0]).complete := by
    decide +kernel
  have hspec := decode_cut (Dialect.registered_of_mem Registry.oldest_mem) hcomplete
  exact ⟨hcomplete, hspec.2.1 25 (by decide)⟩

end Unscript.Script
