import Unscript.Proofs.Bytes.Reading
import Mathlib.Algebra.BigOperators.Group.List.Basic

/-!
# Framing

A step that succeeds has read fields of known sizes one after another. It reads the same value
again wherever these bytes stand at the same offset, whatever follows them; and when the byte string
ends among them, it fails at the first field that goes past the end.

* `Straddles`: the field of a layout into which a cut falls.
* `Reading.Frames`: at an offset a step reads a value from some bytes, in fields of some sizes.
* `Reading.Framed`: whatever a step reads is framed, in fields whose sizes are known by the value.

Results:
* `Reading.Frames.bind`, `Reading.Framed.bind`: steps one after another.
* `Reading.Frames.uint`, `sint`, `float`, `string`: what was written is framed, for each kind of
  field.
* `Reading.Framed.uint`, `sint`, `float`, `string`: so is whatever is read.
-/

namespace Unscript

open Number (Double)

/-! ## Cuts -/

/-- A cut after `k` bytes falls into the field at `start`: the fields before it end by then, and it
goes on beyond. -/
def Straddles (sizes : List Nat) (k start : Nat) : Prop :=
  ∃ before size after, sizes = before ++ size :: after ∧ before.sum = start ∧ start ≤ k ∧
    k < start + size

namespace Straddles

variable {sizes sizes' : List Nat} {k start : Nat}

theorem singleton {size : Nat} (h : k < size) : Straddles [size] k 0 :=
  ⟨[], size, [], rfl, rfl, Nat.zero_le k, by omega⟩

theorem append_right (h : Straddles sizes k start) (sizes' : List Nat) :
    Straddles (sizes ++ sizes') k start := by
  obtain ⟨before, size, after, rfl, hsum, hle, hlt⟩ := h
  exact ⟨before, size, after ++ sizes', by simp, hsum, hle, hlt⟩

theorem append_left (h : Straddles sizes' k start) (sizes : List Nat) :
    Straddles (sizes ++ sizes') (sizes.sum + k) (sizes.sum + start) := by
  obtain ⟨before, size, after, rfl, rfl, hle, hlt⟩ := h
  exact ⟨sizes ++ before, size, after, by simp, by simp, by omega, by omega⟩

end Straddles

namespace Cursor

variable {c c' : Cursor} {bs bs' : List UInt8}

/-- The place behind bytes that stand next. -/
theorem exists_through {rest : List UInt8} (h : c.rest = bs ++ rest) :
    ∃ c', c.Through bs c' ∧ c'.rest = rest :=
  ⟨⟨rest, c.offset + bs.length, c.limit⟩, ⟨h, rfl, rfl⟩, rfl⟩

/-- There is a place between two strings of bytes. -/
theorem Through.split (h : c.Through (bs ++ bs') c') : ∃ c₁, c.Through bs c₁ ∧ c₁.Through bs' c' := by
  obtain ⟨c₁, h₁, hrest⟩ := exists_through (h.rest.trans (List.append_assoc _ _ _))
  refine ⟨c₁, h₁, hrest, ?_, h.limit.trans h₁.limit.symm⟩
  rw [h.offset, h₁.offset, List.length_append, Nat.add_assoc]

theorem Through.eq_advance (h : c.Through bs c') : c' = c.advance bs.length := by
  obtain ⟨rest, offset, limit⟩ := c'
  obtain ⟨hrest, hoffset, hlimit⟩ := h
  simp only at hrest hoffset hlimit
  simp [advance, hrest, hoffset, hlimit]

/-- The place behind some bytes is the only one. -/
theorem Through.eq {c₁ c₂ : Cursor} (h₁ : c.Through bs c₁) (h₂ : c.Through bs c₂) : c₁ = c₂ :=
  h₁.eq_advance.trans h₂.eq_advance.symm

end Cursor

namespace Reading

variable {α β : Type} {o : Nat} {bs bs' : List UInt8} {sizes sizes' : List Nat}

/-! ## Framed values -/

/-- At the offset `o` a step reads the value `a` from the bytes `bs`, in fields of the given sizes:
it does so whatever follows the bytes, and where they are cut off it fails at the field with the
cut. -/
structure Frames (r : Reading α) (o : Nat) (a : α) (bs : List UInt8) (sizes : List Nat) : Prop where
  sum : sizes.sum = bs.length
  whole : ∀ {c c' : Cursor}, c.Valid → c.offset = o → c.Through bs c' → r.runFrom c = (.ok a, c')
  cut : ∀ {c : Cursor} {k : Nat}, c.Valid → c.offset = o → k < bs.length → c.rest = bs.take k →
    ∃ fault start c', r.runFrom c = (.error ⟨fault, o + start⟩, c') ∧ Straddles sizes k start

namespace Frames

theorem congr {r : Reading α} {a : α} (h : r.Frames o a bs sizes) (hbs : bs = bs')
    (hsizes : sizes = sizes') : r.Frames o a bs' sizes' :=
  hbs ▸ hsizes ▸ h

theorem pure (o : Nat) (a : α) : (Pure.pure a : Reading α).Frames o a [] [] where
  sum := rfl
  whole _ _ h := by
    rw [runFrom_pure, ← Cursor.Through.eq (Cursor.Through.refl _) h]
  cut _ _ h := absurd h (Nat.not_lt_zero _)

theorem offset (o : Nat) : Reading.offset.Frames o o [] [] where
  sum := rfl
  whole _ ho h := by
    rw [← Cursor.Through.eq (Cursor.Through.refl _) h, ← ho]
    rfl
  cut _ _ h := absurd h (Nat.not_lt_zero _)

/-- **Steps one after another.** -/
theorem bind {r : Reading α} {f : α → Reading β} {a : α} {b : β} (hr : r.Frames o a bs sizes)
    (hf : (f a).Frames (o + bs.length) b bs' sizes') :
    (r >>= f).Frames o b (bs ++ bs') (sizes ++ sizes') where
  sum := by rw [List.sum_append, hr.sum, hf.sum, List.length_append]
  whole hc ho h := by
    obtain ⟨c₁, h₁, h₂⟩ := h.split
    have hoff : c₁.offset = o + bs.length := by rw [h₁.offset, ho]
    rw [runFrom_bind, hr.whole hc ho h₁]
    exact hf.whole (h₁.valid hc) hoff h₂
  cut {c k} hc ho hk hrest := by
    rw [List.length_append] at hk
    by_cases hlt : k < bs.length
    · rw [List.take_append_of_le_length (Nat.le_of_lt hlt)] at hrest
      obtain ⟨fault, start, c', hrun, hcut⟩ := hr.cut hc ho hlt hrest
      exact ⟨fault, start, c', by rw [runFrom_bind, hrun], hcut.append_right _⟩
    · obtain ⟨j, rfl⟩ : ∃ j, k = bs.length + j := ⟨k - bs.length, by omega⟩
      rw [List.take_length_add_append] at hrest
      obtain ⟨c₁, h₁, hrest₁⟩ := Cursor.exists_through hrest
      have hoff : c₁.offset = o + bs.length := by rw [h₁.offset, ho]
      obtain ⟨fault, start, c', hrun, hcut⟩ := hf.cut (h₁.valid hc) hoff (by omega) hrest₁
      refine ⟨fault, bs.length + start, c', ?_, ?_⟩
      · rw [runFrom_bind, hr.whole hc ho h₁]
        rw [← Nat.add_assoc]
        exact hrun
      · rw [← hr.sum]
        exact hcut.append_left _

/-- A step that looks at its offset first. -/
theorem offset_bind {f : Nat → Reading β} {b : β} (hf : (f o).Frames o b bs sizes) :
    (Reading.offset >>= f).Frames o b bs sizes :=
  (offset o).bind hf

/-- The last step makes a value of what was read. -/
theorem map {r : Reading α} {f : α → β} {a : α} (hr : r.Frames o a bs sizes) :
    (r >>= fun a => Pure.pure (f a)).Frames o (f a) bs sizes :=
  (hr.bind (pure _ (f a))).congr (List.append_nil _) (List.append_nil _)

end Frames

/-! ## Bytes -/

/-- Bytes that end before the limit are taken. -/
theorem runFrom_take {size : Int} {field : String} {limit : Option Int} {c c' : Cursor}
    (h : c.Through bs c') (hsize : (bs.length : Int) = size) (hlimit : c'.offset ≤ c.bound limit) :
    (take size field limit).runFrom c = (.ok bs, c') := by
  subst hsize
  have hoff := h.offset
  unfold take
  rw [runFrom_bind]
  show (if (bs.length : Int) < 0 then _ else _ : Reading _).runFrom c = _
  rw [if_neg (by omega), if_neg (by omega), Int.toNat_natCast, ← h.eq_advance, h.rest,
    List.take_left]
  rfl

/-- Bytes that go beyond the limit are not. -/
theorem runFrom_take_of_lt {size : Int} (field : String) {limit : Option Int} {c : Cursor}
    (hsize : 0 ≤ size) (h : c.bound limit < c.offset + size) :
    (take size field limit).runFrom c = (.error ⟨.truncated field, c.offset⟩, c) := by
  unfold take
  rw [runFrom_bind]
  show (if size < 0 then _ else _ : Reading _).runFrom c = _
  rw [if_neg (by omega), if_pos h]
  rfl

/-- No bound is above the cursor's limit. -/
theorem bound_le (c : Cursor) (limit : Option Int) : c.bound limit ≤ c.limit := by
  unfold Cursor.bound
  split <;> omega

theorem Frames.take (size : Int) (field : String) (limit : Option Int)
    (hsize : (bs.length : Int) = size) (hlimit : ∀ l ∈ limit, (o + bs.length : Int) ≤ l) :
    (Reading.take size field limit).Frames o bs bs [bs.length] where
  sum := by simp
  whole {c c'} hc ho h := by
    refine runFrom_take h hsize ?_
    have hvalid := h.valid hc
    have hlim := h.limit
    have hoff := h.offset
    unfold Cursor.Valid at hvalid
    unfold Cursor.bound
    split
    · have := hlimit _ rfl
      omega
    · omega
  cut {c k} hc ho hk hrest := by
    have hbound := bound_le c limit
    unfold Cursor.Valid at hc
    have hlen : c.rest.length = k := by rw [hrest, List.length_take, Nat.min_eq_left (by omega)]
    refine ⟨.truncated field, 0, c, ?_, .singleton hk⟩
    rw [runFrom_take_of_lt field (by omega) (by omega), ho]
    rfl

/-! ## Fields that were written -/

theorem Frames.uint {n : Nat} {width : Int} (field : String) (limit : Option Int)
    (hlimit : ∀ l ∈ limit, (o + bs.length : Int) ≤ l) (h : Bytes.ofUInt? n width = .ok bs) :
    (Reading.uint width field limit).Frames o n bs [width.toNat] := by
  obtain ⟨hlen, hn⟩ := Bytes.toNat_of_ofUInt? h
  have htake := (Frames.take width field limit hlen hlimit).map (f := Bytes.toNat)
  rw [hn] at htake
  exact htake.congr rfl (by rw [← hlen, Int.toNat_natCast])

theorem Frames.sint {n : Int} {width : Int} (field : String) (hw : 0 < width)
    (h : Bytes.ofSInt? n width = .ok bs) :
    (Reading.sint width field).Frames o n bs [width.toNat] := by
  obtain ⟨hlen, hn⟩ := Bytes.toInt_of_ofSInt? hw h
  have htake := (Frames.take (o := o) width field none hlen (by simp)).map (f := Bytes.toInt)
  rw [hn] at htake
  exact htake.congr rfl (by rw [← hlen, Int.toNat_natCast])

theorem Frames.float {x : Double} {width : Int} (field : String)
    (hx : width = 4 → x.IsNarrow) (h : Bytes.ofFloat? x width = .ok bs) :
    (Reading.float width field).Frames o x bs [width.toNat] := by
  unfold Bytes.ofFloat? at h
  unfold Reading.float
  by_cases h4 : width = 4
  · rw [if_pos h4] at h ⊢
    obtain ⟨bits, hbits, hwiden⟩ := (hx h4).exists_narrow?
    rw [hbits] at h
    cases h
    have hback : UInt32.ofNat (Bytes.toNat (Bytes.ofNat 4 bits.toNat)) = bits := by
      rw [Bytes.toNat_ofNat bits.toNat_lt, UInt32.ofNat_toNat]
    have hlen : ((Bytes.ofNat 4 bits.toNat).length : Int) = 4 := by simp
    have htake := (Frames.take (o := o) 4 field none hlen (by simp)).map
      (f := fun bs => Double.widen (UInt32.ofNat (Bytes.toNat bs)))
    rw [hback, hwiden] at htake
    exact htake.congr rfl (by simp [h4])
  · rw [if_neg h4] at h ⊢
    split at h
    · rename_i h8
      cases h
      rw [if_pos h8]
      have hback : (⟨UInt64.ofNat (Bytes.toNat (Bytes.ofNat 8 x.bits.toNat))⟩ : Double) = x := by
        rw [Bytes.toNat_ofNat x.bits.toNat_lt, UInt64.ofNat_toNat]
      have hlen : ((Bytes.ofNat 8 x.bits.toNat).length : Int) = 8 := by simp
      have htake := (Frames.take (o := o) 8 field none hlen (by simp)).map
        (f := fun bs => (⟨UInt64.ofNat (Bytes.toNat bs)⟩ : Double))
      rw [hback] at htake
      exact htake.congr rfl (by simp [h8])
    · cases h

/-- The sizes of the fields of a text. -/
def textSizes (s : String) : List Nat :=
  [4, (Bytes.ofString s).length]

theorem Frames.string {s : String} (field : String) (h : Bytes.ofText? s = .ok bs) :
    (Reading.string field).Frames o s bs (textSizes s) := by
  obtain ⟨size, rfl, hsize⟩ := Bytes.exists_of_ofText? h
  unfold Reading.string
  refine .offset_bind ((Frames.uint _ none (by simp) hsize).bind ?_)
  refine ((Frames.take _ _ none rfl (by simp)).bind ?_).congr (List.append_nil _) (List.append_nil _)
  rw [Bytes.toText?_ofString]
  exact .pure _ _

/-! ## Fields that are read -/

/-- Whatever a step reads is framed, in fields whose sizes are related to the value. -/
def Framed (r : Reading α) (W : α → List Nat → Prop) : Prop :=
  ∀ ⦃c c' : Cursor⦄ ⦃a : α⦄, c.Valid → r.runFrom c = (.ok a, c') →
    ∃ bs sizes, c.Through bs c' ∧ r.Frames c.offset a bs sizes ∧ W a sizes

namespace Framed

variable {W W' : α → List Nat → Prop} {V : β → List Nat → Prop}

theorem mono {r : Reading α} (h : r.Framed W) (hW : ∀ a s, W a s → W' a s) : r.Framed W' := by
  intro c c' a hc hrun
  obtain ⟨bs, sizes, hthrough, hframes, hw⟩ := h hc hrun
  exact ⟨bs, sizes, hthrough, hframes, hW a sizes hw⟩

theorem pure {a : α} (h : W a []) : (Pure.pure a : Reading α).Framed W := by
  intro c c' _ _ hrun
  cases hrun
  exact ⟨[], [], .refl c, .pure _ a, h⟩

theorem offset : Reading.offset.Framed fun _ s => s = [] := by
  intro c c' _ _ hrun
  cases hrun
  exact ⟨[], [], .refl c, .offset _, rfl⟩

/-- A step that fails reads nothing. -/
theorem failAt (offset : Nat) (fault : DecodeFault) : (Reading.failAt offset fault).Framed W := by
  intro c c' a _ hrun
  cases hrun

/-- **Steps one after another.** The sizes of the first part are known when the second is read. -/
theorem bind {r : Reading α} {f : α → Reading β} (hr : r.Framed W)
    (hf : ∀ a s, W a s → (f a).Framed fun b s' => V b (s ++ s')) : (r >>= f).Framed V := by
  intro c c' b hc hrun
  obtain ⟨a, c₁, ha, hb⟩ := runFrom_bind_ok hrun
  obtain ⟨bs, s, hthrough, hframes, hw⟩ := hr hc ha
  obtain ⟨bs', s', hthrough', hframes', hv⟩ := hf a s hw (hthrough.valid hc) hb
  rw [hthrough.offset] at hframes'
  exact ⟨bs ++ bs', s ++ s', hthrough.trans hthrough', hframes.bind hframes', hv⟩

theorem failAt_bind (offset : Nat) (fault : DecodeFault) (f : α → Reading β) :
    (Reading.failAt offset fault >>= f).Framed V :=
  (failAt (W := fun _ _ => False) offset fault).bind fun _ _ h => h.elim

theorem take (size : Int) (field : String) (limit : Option Int) :
    (Reading.take size field limit).Framed fun bs s => (bs.length : Int) = size ∧ s = [bs.length] := by
  intro c c' bs hc hrun
  obtain ⟨hthrough, hsize, hbound⟩ := take_ok hc hrun
  refine ⟨bs, _, hthrough, Frames.take size field limit hsize fun l hl => ?_, hsize, rfl⟩
  have hoff := hthrough.offset
  unfold Cursor.bound at hbound
  rw [hl] at hbound
  dsimp only at hbound
  omega

theorem uint (width : Int) (field : String) (limit : Option Int) :
    (Reading.uint width field limit).Framed fun _ s => s = [width.toNat] := by
  refine (take width field limit).bind fun bs s hs => .pure ?_
  obtain ⟨hsize, rfl⟩ := hs
  rw [← hsize, Int.toNat_natCast, List.append_nil]

theorem sint (width : Int) (field : String) :
    (Reading.sint width field).Framed fun _ s => s = [width.toNat] := by
  refine (take width field none).bind fun bs s hs => .pure ?_
  obtain ⟨hsize, rfl⟩ := hs
  rw [← hsize, Int.toNat_natCast, List.append_nil]

theorem float (width : Int) (field : String) :
    (Reading.float width field).Framed fun _ s => s = [width.toNat] := by
  unfold Reading.float
  split
  · rename_i h4
    refine (take 4 field none).bind fun bs s hs => .pure ?_
    obtain ⟨hsize, rfl⟩ := hs
    rw [h4, ← hsize, Int.toNat_natCast, List.append_nil]
  · split
    · rename_i h8
      refine (take 8 field none).bind fun bs s hs => .pure ?_
      obtain ⟨hsize, rfl⟩ := hs
      rw [h8, ← hsize, Int.toNat_natCast, List.append_nil]
    · exact offset.bind fun _ _ _ => .failAt _ _

theorem string (field : String) : (Reading.string field).Framed fun s sizes => sizes = textSizes s := by
  unfold Reading.string
  refine offset.bind fun _ _ h₀ => (uint 4 _ none).bind fun n _ h₁ =>
    (take n field none).bind fun bs _ h₂ => ?_
  obtain ⟨-, rfl⟩ := h₂
  subst h₀ h₁
  cases htext : Bytes.toText? bs with
  | some s =>
    refine .pure ?_
    rw [textSizes, Bytes.ofString_of_toText? htext]
    rfl
  | none => exact .failAt _ _

end Framed

end Reading

end Unscript
