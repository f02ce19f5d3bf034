import Unscript.Proofs.Bytes.Fields
import Unscript.Proofs.Number.Widening
import Unscript.Proofs.Outcome

/-!
# The bytes a reading step consumes

A step that succeeds stands at the front of some bytes before it and behind them after it. What it
makes of these bytes is written as the same bytes again, for every kind of field.

* `Cursor.Through`: the bytes between two places.
* `Reading.Consumes`: whatever a step reads is related to the bytes it goes through.

Results:
* `Reading.uint_consumes`, `sint_consumes`, `float_consumes`, `string_consumes`: each kind of field
  is written back as the bytes it was read from, a four-byte NaN aside.
-/

namespace Unscript

open Number (Double)

/-! ## Places -/

namespace Cursor

/-- The cursor's limit is the end of its bytes. -/
def Valid (c : Cursor) : Prop :=
  c.limit = c.offset + c.rest.length

/-- The bytes from one place to another one of the same byte string. -/
structure Through (c : Cursor) (bs : List UInt8) (c' : Cursor) : Prop where
  rest : c.rest = bs ++ c'.rest
  offset : c'.offset = c.offset + bs.length
  limit : c'.limit = c.limit

theorem valid_ofBytes (data : List UInt8) : (ofBytes data).Valid := by
  simp [Valid, ofBytes]

namespace Through

variable {c c' c'' : Cursor} {bs bs' : List UInt8}

theorem refl (c : Cursor) : c.Through [] c :=
  ⟨rfl, rfl, rfl⟩

theorem trans (h : c.Through bs c') (h' : c'.Through bs' c'') : c.Through (bs ++ bs') c'' := by
  refine ⟨?_, ?_, h'.limit.trans h.limit⟩
  · rw [h.rest, h'.rest, List.append_assoc]
  · rw [h'.offset, h.offset, List.length_append, Nat.add_assoc]

theorem valid (h : c.Through bs c') (hc : c.Valid) : c'.Valid := by
  unfold Valid at *
  rw [h.limit, h.offset, hc, h.rest, List.length_append]
  push_cast
  omega

end Through

theorem through_advance {c : Cursor} {n : Nat} (h : n ≤ c.rest.length) :
    c.Through (c.rest.take n) (c.advance n) := by
  refine ⟨(List.take_append_drop n c.rest).symm, ?_, rfl⟩
  simp only [advance, List.length_take, Nat.min_eq_left h]

end Cursor

namespace Reading

variable {α β : Type}

/-! ## Steps one after another -/

theorem runFrom_pure (a : α) (c : Cursor) : (pure a : Reading α).runFrom c = (.ok a, c) :=
  rfl

theorem runFrom_bind (r : Reading α) (f : α → Reading β) (c : Cursor) :
    (r >>= f).runFrom c =
      match r.runFrom c with
      | (.ok a, c') => (f a).runFrom c'
      | (.error e, c') => (.error e, c') := by
  unfold runFrom
  rw [Outcome.run_bind]
  rcases h : r.run.run c with ⟨_ | _, _⟩ <;> rfl

/-- A sequence of steps succeeds when both do, the second from where the first ends. -/
theorem runFrom_bind_ok {r : Reading α} {f : α → Reading β} {c c' : Cursor} {b : β}
    (h : (r >>= f).runFrom c = (.ok b, c')) :
    ∃ a c₁, r.runFrom c = (.ok a, c₁) ∧ (f a).runFrom c₁ = (.ok b, c') := by
  rw [runFrom_bind] at h
  split at h
  · exact ⟨_, _, ‹_›, h⟩
  · cases h

/-- Bytes that are taken are those before the cursor, and they end before the limit. -/
theorem take_ok {size : Int} {field : String} {limit : Option Int} {c c' : Cursor}
    {bs : List UInt8} (hc : c.Valid) (h : (take size field limit).runFrom c = (.ok bs, c')) :
    c.Through bs c' ∧ (bs.length : Int) = size ∧ (c'.offset : Int) ≤ c.bound limit := by
  obtain ⟨c₀, c₁, hget, h⟩ := runFrom_bind_ok h
  cases hget
  split at h
  · cases h
  · split at h
    · cases h
    · rename_i hneg hbound
      cases h
      have hle : c.bound limit ≤ c.limit := by
        unfold Cursor.bound
        split <;> omega
      have hn : size.toNat ≤ c.rest.length := by
        unfold Cursor.Valid at hc
        omega
      refine ⟨Cursor.through_advance hn, ?_, ?_⟩
      · rw [List.length_take, Nat.min_eq_left hn]
        omega
      · simp only [Cursor.advance]
        push_cast
        omega

/-! ## Fields -/

/-- Whatever a step reads is related to the bytes it goes through. -/
def Consumes (r : Reading α) (W : α → List UInt8 → Prop) : Prop :=
  ∀ ⦃c c' : Cursor⦄ ⦃a : α⦄, c.Valid → r.runFrom c = (.ok a, c') → ∃ bs, c.Through bs c' ∧ W a bs

theorem uint_ok {width : Int} {field : String} {limit : Option Int} {c c' : Cursor} {n : Nat}
    (hc : c.Valid) (h : (uint width field limit).runFrom c = (.ok n, c')) :
    ∃ bs, c.Through bs c' ∧ (bs.length : Int) = width ∧ Bytes.toNat bs = n ∧
      (c'.offset : Int) ≤ c.bound limit := by
  obtain ⟨bs, c₁, htake, h⟩ := runFrom_bind_ok h
  cases h
  obtain ⟨hthrough, hlen, hlimit⟩ := take_ok hc htake
  exact ⟨bs, hthrough, hlen, rfl, hlimit⟩

/-- **Numbers.** A number that is read is written as the bytes it was read from. -/
theorem uint_consumes (width : Int) (field : String) :
    Consumes (uint width field) fun n bs =>
      Bytes.ofUInt? n width = .ok bs ∧ (bs.length : Int) = width ∧ Bytes.toNat bs = n := by
  intro c c' n hc h
  obtain ⟨bs, hthrough, hlen, hn, -⟩ := uint_ok hc h
  subst hn
  exact ⟨bs, hthrough, Bytes.ofUInt?_toNat hlen, hlen, rfl⟩

/-- **Signed numbers.** A field of no bytes reads as zero, and is not written. -/
theorem sint_consumes {width : Int} (hw : 0 < width) (field : String) :
    Consumes (sint width field) fun n bs => Bytes.ofSInt? n width = .ok bs := by
  intro c c' n hc h
  obtain ⟨bs, c₁, htake, h⟩ := runFrom_bind_ok h
  cases h
  obtain ⟨hthrough, hlen, -⟩ := take_ok hc htake
  exact ⟨bs, hthrough, Bytes.ofSInt?_toInt hlen hw⟩

/-- **Floating point numbers.** They are written as the bytes they were read from, except that a
four-byte NaN has become quiet. -/
theorem float_consumes (width : Int) (field : String) :
    Consumes (float width field) fun x bs =>
      (width = 4 → ¬ x.isNaN) → Bytes.ofFloat? x width = .ok bs := by
  intro c c' x hc h
  unfold float at h
  split at h
  · rename_i h4
    obtain ⟨bs, c₁, htake, h⟩ := runFrom_bind_ok h
    cases h
    obtain ⟨hthrough, hlen, -⟩ := take_ok hc htake
    refine ⟨bs, hthrough, fun hnan => ?_⟩
    have hlt : Bytes.toNat bs < 2 ^ 32 := by
      have hl : bs.length = 4 := by omega
      have := Bytes.toNat_lt bs
      rwa [hl] at this
    have hbits : (UInt32.ofNat (Bytes.toNat bs)).toNat = Bytes.toNat bs :=
      UInt32.toNat_ofNat_of_lt' hlt
    have hnarrow := Double.narrow?_widen (UInt32.ofNat (Bytes.toNat bs))
      (Double.fraction_eq_zero_of_not_isNaN (hnan h4))
    have hback : Bytes.ofNat 4 (Bytes.toNat bs) = bs := by
      have hl : bs.length = 4 := by omega
      rw [← hl]
      exact Bytes.ofNat_toNat bs
    unfold Bytes.ofFloat?
    rw [if_pos h4, hnarrow]
    simp only [hbits, hback]
  · split at h
    · rename_i h4 h8
      obtain ⟨bs, c₁, htake, h⟩ := runFrom_bind_ok h
      cases h
      obtain ⟨hthrough, hlen, -⟩ := take_ok hc htake
      refine ⟨bs, hthrough, fun _ => ?_⟩
      have hl : bs.length = 8 := by omega
      have hlt : Bytes.toNat bs < 2 ^ 64 := by
        have := Bytes.toNat_lt bs
        rwa [hl] at this
      have hbits : (UInt64.ofNat (Bytes.toNat bs)).toNat = Bytes.toNat bs :=
        UInt64.toNat_ofNat_of_lt' hlt
      have hback : Bytes.ofNat 8 (Bytes.toNat bs) = bs := by
        rw [← hl]
        exact Bytes.ofNat_toNat bs
      unfold Bytes.ofFloat?
      rw [if_neg h4, if_pos h8]
      simp only [hbits, hback]
    · obtain ⟨_, _, _, h⟩ := runFrom_bind_ok h
      cases h

/-- **Texts.** A text that is read is written as the bytes it was read from. -/
theorem string_consumes (field : String) :
    Consumes (string field) fun s bs => Bytes.ofText? s = .ok bs := by
  intro c c' s hc h
  obtain ⟨_, _, hoff, h⟩ := runFrom_bind_ok h
  cases hoff
  obtain ⟨n, c₁, hsize, h⟩ := runFrom_bind_ok h
  obtain ⟨bs, c₂, htake, h⟩ := runFrom_bind_ok h
  obtain ⟨size, hthrough, hlen, hn, -⟩ := uint_ok hc hsize
  obtain ⟨hthrough', hlen', -⟩ := take_ok (hthrough.valid hc) htake
  split at h
  · rename_i s' htext
    cases h
    exact ⟨size ++ bs, hthrough.trans hthrough',
      Bytes.ofText?_of_toText? (by omega) (by omega) htext⟩
  · cases h

end Reading

end Unscript
