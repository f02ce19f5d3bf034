import Unscript.Bytes.Reader
import Unscript.Bytes.Writer
import Mathlib.Tactic.NormNum

/-!
# Fields written back

What a reader makes of the bytes of a field, the writer turns into the same bytes again, and the
other way round. The statements speak of the bytes alone; `Unscript.Proofs.Bytes.Reading` says which
bytes a reading step consumes.

Results:
* `ofUInt?_toNat`, `ofSInt?_toInt`: numbers of any width, in two's complement if signed.
* `ofString_of_toText?`, `ofText?_of_toText?`: texts in UTF-8, and their lengths.
* `ofUInt?_eq_ok`: which numbers are written.
* `toNat_of_ofUInt?`, `toInt_of_ofSInt?`, `toText?_ofString`: what was written is read back.
-/

namespace Unscript.Bytes

-- Powers are those of `NatPow`, whichever other instances a proof brings into scope.
attribute [local instance (1100)] instPowNat

/-! ## Numbers -/

/-- The low bytes of a number written by bytes are these bytes. -/
theorem ofNat_toNat (bs : List UInt8) : ofNat bs.length (toNat bs) = bs := by
  induction bs with
  | nil => rfl
  | cons b bs ih =>
    have hb : b.toNat < 256 := b.toNat_lt
    have hmod : UInt8.ofNat (b.toNat + 256 * toNat bs) = b := by
      apply UInt8.toNat_inj.mp
      rw [UInt8.toNat_ofNat']
      omega
    have hdiv : (b.toNat + 256 * toNat bs) / 256 = toNat bs := by omega
    rw [List.length_cons, toNat, ofNat, hmod, hdiv, ih]

/-- **Unsigned numbers.** The number of some bytes is written as these bytes. -/
theorem ofUInt?_toNat {bs : List UInt8} {width : Int} (h : (bs.length : Int) = width) :
    ofUInt? (toNat bs) width = .ok bs := by
  subst h
  have hlt : ((toNat bs : Nat) : Int) < 256 ^ bs.length := by exact_mod_cast toNat_lt bs
  have hnn : (0 : Int) ≤ toNat bs := Int.natCast_nonneg _
  rw [ofUInt?, if_neg (by omega), Int.toNat_natCast, if_pos ⟨hnn, hlt⟩, Int.toNat_natCast,
    ofNat_toNat]

/-- The two halves of the range of a signed field. -/
theorem pow_eq_two_mul_half {w : Nat} (hw : 0 < w) : 256 ^ w = 2 * 2 ^ (8 * w - 1) := by
  obtain ⟨k, rfl⟩ : ∃ k, w = k + 1 := ⟨w - 1, by omega⟩
  have e : 8 * (k + 1) - 1 = 8 * k + 7 := by omega
  have h8 : 2 ^ (8 * k) = 256 ^ k := Nat.pow_mul 2 8 k
  rw [e, Nat.pow_succ, Nat.pow_add, h8]
  omega

/-- **Signed numbers.** The number of some bytes in two's complement is written as these bytes. -/
theorem ofSInt?_toInt {bs : List UInt8} {width : Int} (h : (bs.length : Int) = width)
    (hw : 0 < width) : ofSInt? (toInt bs) width = .ok bs := by
  subst h
  have hlen : 0 < bs.length := by omega
  have hlt : toNat bs < 256 ^ bs.length := toNat_lt bs
  have hpow : 256 ^ bs.length = 2 * 2 ^ (8 * bs.length - 1) := pow_eq_two_mul_half hlen
  have hhalf : (2 : Int) ^ (8 * bs.length - 1) = ((2 ^ (8 * bs.length - 1) : Nat) : Int) := by
    push_cast; rfl
  have hfull : (256 : Int) ^ bs.length = ((256 ^ bs.length : Nat) : Int) := by push_cast; rfl
  have hback : ofNat bs.length (toInt bs % (256 : Int) ^ bs.length).toNat = bs := by
    have e : (toInt bs % (256 : Int) ^ bs.length).toNat = toNat bs := by
      unfold toInt
      simp only [hfull]
      split
      · rw [Int.emod_eq_of_lt (by omega) (by omega), Int.toNat_natCast]
      · rw [Int.sub_emod_right, Int.emod_eq_of_lt (by omega) (by omega), Int.toNat_natCast]
    rw [e, ofNat_toNat]
  have habove : toInt bs / (2 : Int) ^ (8 * bs.length - 1) = 0 ∨
      toInt bs / (2 : Int) ^ (8 * bs.length - 1) = -1 := by
    unfold toInt
    simp only [hfull, hhalf]
    generalize 2 ^ (8 * bs.length - 1) = p at *
    split
    · exact Or.inl (Int.ediv_eq_zero_of_lt (by omega) (by omega))
    · exact Or.inr (by rw [Int.ediv_eq_iff_of_pos (by omega)]; omega)
  rw [ofSInt?, if_neg (by omega), Int.toNat_natCast]
  simp only
  rw [if_pos habove, hback]

/-! ## Texts -/

/-- **Texts.** The text of some bytes is written as these bytes. -/
theorem ofString_of_toText? {bs : List UInt8} {s : String} (h : toText? bs = some s) :
    ofString s = bs := by
  unfold toText? String.fromUTF8? at h
  split at h
  · cases h
    rfl
  · cases h

/-- A text read after its length is written with that length. -/
theorem ofText?_of_toText? {size bs : List UInt8} {s : String} (hs : size.length = 4)
    (hn : toNat size = bs.length) (h : toText? bs = some s) : ofText? s = .ok (size ++ bs) := by
  have hlen : ofUInt? (bs.length : Int) 4 = .ok size := by
    rw [← hn]
    exact ofUInt?_toNat (by omega)
  unfold ofText?
  rw [ofString_of_toText? h]
  simp only [hlen]
  rfl

/-! ## Read back -/

/-- A number that fits some bytes is read from them. -/
theorem toNat_ofNat {width n : Nat} (h : n < 256 ^ width) : toNat (ofNat width n) = n := by
  induction width generalizing n with
  | zero =>
    have : n = 0 := by simpa using h
    rw [this]
    rfl
  | succ w ih =>
    rw [Nat.pow_succ] at h
    rw [ofNat, toNat, ih (by omega), UInt8.toNat_ofNat']
    omega

/-- **Unsigned numbers that are written** are those that fit. -/
theorem ofUInt?_eq_ok {value : Int} {w : Nat} {bs : List UInt8} : ofUInt? value w = .ok bs ↔
    0 ≤ value ∧ value < 256 ^ w ∧ bs = ofNat w value.toNat := by
  unfold ofUInt?
  rw [if_neg (by omega), Int.toNat_natCast]
  split
  · rename_i hrange
    rw [Except.ok.injEq]
    exact ⟨fun h => ⟨hrange.1, hrange.2, h.symm⟩, fun h => h.2.2.symm⟩
  · rename_i hrange
    exact ⟨fun h => (nomatch h), fun h => absurd ⟨h.1, h.2.1⟩ hrange⟩

/-- A natural number is written in some bytes if it fits these. -/
theorem exists_ofUInt?_iff {n w : Nat} : (∃ bs, ofUInt? n w = .ok bs) ↔ n < 256 ^ w := by
  constructor
  · rintro ⟨bs, h⟩
    exact_mod_cast (ofUInt?_eq_ok.mp h).2.1
  · intro h
    exact ⟨_, ofUInt?_eq_ok.mpr ⟨Int.natCast_nonneg n, by exact_mod_cast h, rfl⟩⟩

theorem nonneg_of_ofUInt? {value width : Int} {bs : List UInt8} (h : ofUInt? value width = .ok bs) :
    0 ≤ value := by
  unfold ofUInt? at h
  split at h
  · cases h
  · split at h
    · rename_i hrange
      exact hrange.1
    · cases h

/-- **Unsigned numbers, read back.** -/
theorem toNat_of_ofUInt? {n : Nat} {width : Int} {bs : List UInt8} (h : ofUInt? n width = .ok bs) :
    (bs.length : Int) = width ∧ toNat bs = n := by
  unfold ofUInt? at h
  split at h
  · cases h
  · split at h
    · rename_i hw hn
      cases h
      rw [Int.toNat_natCast, length_ofNat]
      exact ⟨by omega, toNat_ofNat (by exact_mod_cast hn.2)⟩
    · cases h

/-- What two's complement keeps of a number is the number, if all that is cut off is its sign. -/
theorem toInt_ofNat {value : Int} {w : Nat} (hw : 0 < w)
    (h : value / (2 : Int) ^ (8 * w - 1) = 0 ∨ value / (2 : Int) ^ (8 * w - 1) = -1) :
    toInt (ofNat w (value % (256 : Int) ^ w).toNat) = value := by
  have hpow : 256 ^ w = 2 * 2 ^ (8 * w - 1) := pow_eq_two_mul_half hw
  have hhalf : (2 : Int) ^ (8 * w - 1) = ((2 ^ (8 * w - 1) : Nat) : Int) := by push_cast; rfl
  have hfull : (256 : Int) ^ w = ((256 ^ w : Nat) : Int) := by push_cast; rfl
  have hpos : 0 < 2 ^ (8 * w - 1) := Nat.two_pow_pos _
  rw [hhalf] at h
  have hrem : (value % (256 : Int) ^ w).toNat < 256 ^ w := by
    have := Int.emod_lt_of_pos value (b := (256 : Int) ^ w) (by rw [hfull]; omega)
    omega
  unfold toInt
  simp only [length_ofNat]
  rw [toNat_ofNat hrem, hfull]
  generalize 2 ^ (8 * w - 1) = p at *
  rw [hpow]
  rcases h with h | h
  · rw [Int.ediv_eq_iff_of_pos (by omega)] at h
    have hmod : value % ((2 * p : Nat) : Int) = value := Int.emod_eq_of_lt (by omega) (by omega)
    rw [hmod, if_pos (by omega)]
    omega
  · rw [Int.ediv_eq_iff_of_pos (by omega)] at h
    have hmod : value % ((2 * p : Nat) : Int) = value + ((2 * p : Nat) : Int) := by
      rw [← Int.add_emod_right, Int.emod_eq_of_lt (by omega) (by omega)]
    rw [hmod, if_neg (by omega)]
    omega

/-- **Signed numbers, read back.** -/
theorem toInt_of_ofSInt? {n : Int} {width : Int} {bs : List UInt8} (hw : 0 < width)
    (h : ofSInt? n width = .ok bs) : (bs.length : Int) = width ∧ toInt bs = n := by
  unfold ofSInt? at h
  rw [if_neg (by omega)] at h
  dsimp only at h
  split at h
  · rename_i habove
    cases h
    rw [length_ofNat]
    exact ⟨by omega, toInt_ofNat (by omega) habove⟩
  · cases h

/-- **Texts, read back.** -/
theorem toText?_ofString (s : String) : toText? (ofString s) = some s := by
  have hvalid : s.toUTF8.IsValidUTF8 := s.isValidUTF8
  unfold toText? String.fromUTF8?
  exact dif_pos hvalid

/-- A text is written after its length. -/
theorem exists_of_ofText? {s : String} {bs : List UInt8} (h : ofText? s = .ok bs) :
    ∃ size, bs = size ++ ofString s ∧ ofUInt? (ofString s).length 4 = .ok size := by
  unfold ofText? at h
  dsimp only at h
  cases hs : ofUInt? (ofString s).length 4 with
  | error e =>
    rw [hs] at h
    cases h
  | ok size =>
    rw [hs] at h
    cases h
    exact ⟨size, rfl, rfl⟩

end Unscript.Bytes
