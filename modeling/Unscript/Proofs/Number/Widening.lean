import Unscript.Number.Double
import Mathlib.Data.Int.Log
import Mathlib.Data.Rat.Floor
import Mathlib.Tactic.NormNum
import Mathlib.Tactic.Ring

/-!
# Widening is exact

A four-byte number that is read becomes an eight-byte number with the same value, and writing that
one back in four bytes gives the pattern that was read. Only a NaN can change on the way: it
becomes quiet.

Results:
* `Binary.nearest_of_normal`: a number that a format has is its own nearest number.
* `Double.narrow?_widen`: every pattern but a NaN's survives widening and narrowing.
* `Double.IsNarrow.exists_narrow?`: every number with a four-byte pattern survives narrowing and
  widening.
-/

namespace Unscript.Number

-- Powers are those of `NatPow`, whichever other instances a proof brings into scope.
attribute [local instance (1100)] instPowNat

/-- A quotient that is a whole number is not rounded. -/
theorem roundDiv_mul (m : Nat) {den : Nat} (h : 0 < den) : roundDiv (m * den) den = m := by
  unfold roundDiv
  simp only [Nat.mul_mod_left, Nat.mul_div_cancel m h]
  rw [if_neg (by omega)]

namespace Binary

/-! ## The value of a mantissa and an exponent -/

/-- A power of two as a quotient of natural numbers. -/
theorem zpow_eq_div (e : Int) : (2 : ℚ) ^ e = (2 ^ e.toNat : Nat) / (2 ^ (-e).toNat : Nat) := by
  rcases Int.le_total 0 e with h | h
  · have hz : (-e).toNat = 0 := by omega
    have he : ((e.toNat : Int)) = e := Int.toNat_of_nonneg h
    rw [hz, Nat.pow_zero, Nat.cast_one, div_one, Nat.cast_pow, Nat.cast_ofNat, ← zpow_natCast, he]
  · have hz : e.toNat = 0 := by omega
    have he : -(((-e).toNat : Int)) = e := by omega
    rw [hz, Nat.pow_zero, Nat.cast_one, one_div, Nat.cast_pow, Nat.cast_ofNat, ← zpow_natCast,
      ← zpow_neg, he]

theorem fraction_snd_pos (b : Binary) : 0 < b.fraction.2 := by
  unfold fraction
  split
  · exact Nat.one_pos
  · exact Nat.two_pow_pos _

/-- The fraction of a number is its value. -/
theorem fraction_div (b : Binary) :
    (b.fraction.1 : ℚ) / b.fraction.2 = b.mantissa * (2 : ℚ) ^ b.exponent := by
  rw [zpow_eq_div]
  unfold fraction
  split
  · have hz : (-b.exponent).toNat = 0 := by omega
    rw [hz]
    push_cast
    simp
  · have hz : b.exponent.toNat = 0 := by omega
    rw [hz]
    push_cast
    simp [div_eq_mul_inv]

/-! ## The exponent of a quotient -/

/-- The exponent of a quotient is its logarithm, rounded down. -/
theorem exponentOf_eq_log {num den : Nat} (hn : 0 < num) (hd : 0 < den) :
    exponentOf num den = Int.log 2 ((num : ℚ) / den) := by
  have hnq : (0 : ℚ) < num := by exact_mod_cast hn
  have hdq : (0 : ℚ) < den := by exact_mod_cast hd
  have hq : (0 : ℚ) < (num : ℚ) / den := div_pos hnq hdq
  have h2 : (2 : ℚ) ≠ 0 := by norm_num
  -- The bounds that the two binary logarithms give for the quotient.
  have hn1 : ((2 : ℚ) ^ ((Nat.log2 num : Nat) : Int)) ≤ num := by
    rw [zpow_natCast]
    exact_mod_cast Nat.log2_self_le (by omega)
  have hn2 : (num : ℚ) < (2 : ℚ) ^ ((Nat.log2 num : Int) + 1) := by
    rw [← Nat.cast_succ, zpow_natCast]
    exact_mod_cast Nat.lt_log2_self
  have hd1 : ((2 : ℚ) ^ ((Nat.log2 den : Nat) : Int)) ≤ den := by
    rw [zpow_natCast]
    exact_mod_cast Nat.log2_self_le (by omega)
  have hd2 : (den : ℚ) < (2 : ℚ) ^ ((Nat.log2 den : Int) + 1) := by
    rw [← Nat.cast_succ, zpow_natCast]
    exact_mod_cast Nat.lt_log2_self
  have low : (2 : ℚ) ^ ((Nat.log2 num : Int) - Nat.log2 den - 1) ≤ (num : ℚ) / den := by
    rw [le_div_iff₀ hdq]
    calc (2 : ℚ) ^ ((Nat.log2 num : Int) - Nat.log2 den - 1) * den
        ≤ (2 : ℚ) ^ ((Nat.log2 num : Int) - Nat.log2 den - 1) *
            (2 : ℚ) ^ ((Nat.log2 den : Int) + 1) :=
          mul_le_mul_of_nonneg_left hd2.le (zpow_nonneg (by norm_num) _)
      _ = (2 : ℚ) ^ ((Nat.log2 num : Nat) : Int) := by
          rw [← zpow_add₀ h2]
          congr 1
          ring
      _ ≤ num := hn1
  have high : (num : ℚ) / den < (2 : ℚ) ^ ((Nat.log2 num : Int) - Nat.log2 den + 1) := by
    rw [div_lt_iff₀ hdq]
    calc (num : ℚ) < (2 : ℚ) ^ ((Nat.log2 num : Int) + 1) := hn2
      _ = (2 : ℚ) ^ ((Nat.log2 num : Int) - Nat.log2 den + 1) *
            (2 : ℚ) ^ ((Nat.log2 den : Nat) : Int) := by
          rw [← zpow_add₀ h2]
          congr 1
          ring
      _ ≤ (2 : ℚ) ^ ((Nat.log2 num : Int) - Nat.log2 den + 1) * den :=
          mul_le_mul_of_nonneg_left hd1 (zpow_nonneg (by norm_num) _)
  rw [← Nat.cast_ofNat, Int.zpow_le_iff_le_log (by norm_num) hq] at low
  rw [← Nat.cast_ofNat, Int.lt_zpow_iff_log_lt (by norm_num) hq] at high
  unfold exponentOf
  simp only
  generalize (Nat.log2 num : Int) - Nat.log2 den = k at *
  -- The comparison of the two products decides between the two candidates.
  have test : den * 2 ^ k.toNat ≤ num * 2 ^ (-k).toNat ↔ (2 : ℚ) ^ k ≤ (num : ℚ) / den := by
    have hp : (0 : ℚ) < (2 ^ (-k).toNat : Nat) := by exact_mod_cast Nat.two_pow_pos _
    rw [zpow_eq_div, div_le_div_iff₀ hp hdq, mul_comm ((2 ^ k.toNat : Nat) : ℚ)]
    norm_cast
  have testLog := Int.zpow_le_iff_le_log (b := 2) (x := k) (by norm_num) hq
  rw [Nat.cast_ofNat] at testLog
  by_cases h : den * 2 ^ k.toNat ≤ num * 2 ^ (-k).toNat
  · have := testLog.mp (test.mp h)
    rw [if_pos h]
    omega
  · have := mt testLog.mpr (mt test.mpr h)
    rw [if_neg h]
    omega

/-! ## Numbers that a format has -/

/-- The form in which a format with `digits` binary digits and the least exponent `least` keeps a
number: the mantissa fits, and it is filled up unless the exponent is the least. -/
structure Normal (digits : Nat) (least : Int) (b : Binary) : Prop where
  fits : b.mantissa < 2 ^ digits
  least_le : least ≤ b.exponent
  full : 2 ^ (digits - 1) ≤ b.mantissa ∨ b.exponent = least

/-- The exponent that rounding chooses for a number in the form of the format. -/
theorem Normal.exponent_eq {digits : Nat} {least : Int} {b : Binary} (hb : Normal digits least b)
    (hdig : 0 < digits) (hm : 0 < b.mantissa) :
    max (Int.log 2 ((b.mantissa : ℚ) * (2 : ℚ) ^ b.exponent) - (digits - 1 : Nat)) least =
      b.exponent := by
  have h2 : (2 : ℚ) ≠ 0 := by norm_num
  have hp : (0 : ℚ) < (2 : ℚ) ^ b.exponent := zpow_pos (by norm_num) _
  have hq : (0 : ℚ) < (b.mantissa : ℚ) * (2 : ℚ) ^ b.exponent :=
    mul_pos (by exact_mod_cast hm) hp
  have above : Int.log 2 ((b.mantissa : ℚ) * (2 : ℚ) ^ b.exponent) < digits + b.exponent := by
    apply (Int.lt_zpow_iff_log_lt (b := 2) (by norm_num) hq).mp
    rw [Nat.cast_ofNat, zpow_add₀ h2, zpow_natCast]
    apply mul_lt_mul_of_pos_right _ hp
    exact_mod_cast hb.fits
  have hle := hb.least_le
  rcases hb.full with hfull | hleast
  · have below : (digits - 1 : Nat) + b.exponent ≤
        Int.log 2 ((b.mantissa : ℚ) * (2 : ℚ) ^ b.exponent) := by
      apply (Int.zpow_le_iff_le_log (b := 2) (by norm_num) hq).mp
      rw [Nat.cast_ofNat, zpow_add₀ h2, zpow_natCast]
      apply mul_le_mul_of_nonneg_right _ hp.le
      exact_mod_cast hfull
    omega
  · omega

/-- **Exact numbers are not rounded.** The nearest pattern to a number in the form of the format is
made of its exponent and its mantissa. -/
theorem nearest_of_normal {digits : Nat} {least : Int} {b : Binary} {num den : Nat}
    (hb : Normal digits least b) (hdig : 0 < digits) (hd : 0 < den)
    (hv : (num : ℚ) / den = b.mantissa * (2 : ℚ) ^ b.exponent) :
    nearest digits least num den = (b.exponent - least).toNat * 2 ^ (digits - 1) + b.mantissa := by
  have hdq : (0 : ℚ) < den := by exact_mod_cast hd
  have hp : (0 : ℚ) < (2 : ℚ) ^ b.exponent := zpow_pos (by norm_num) _
  have hzero : num = 0 ↔ b.mantissa = 0 := by
    rw [div_eq_iff hdq.ne'] at hv
    constructor
    · intro h
      have : (b.mantissa : ℚ) * (2 : ℚ) ^ b.exponent * den = 0 := by rw [← hv, h, Nat.cast_zero]
      simpa [hp.ne', hdq.ne'] using this
    · intro h
      have : (num : ℚ) = 0 := by rw [hv, h, Nat.cast_zero, zero_mul, zero_mul]
      exact_mod_cast this
  unfold nearest
  by_cases hn : num = 0
  · have hm := hzero.mp hn
    have hpos := Nat.two_pow_pos (digits - 1)
    rcases hb.full with hfull | hleast
    · omega
    · rw [if_pos hn, hm, hleast, Int.sub_self, Int.toNat_zero, Nat.zero_mul]
  · have hm : 0 < b.mantissa := Nat.pos_of_ne_zero (mt hzero.mpr hn)
    rw [if_neg hn]
    simp only
    rw [exponentOf_eq_log (Nat.pos_of_ne_zero hn) hd, hv, hb.exponent_eq hdig hm]
    have hscale : num * 2 ^ (-b.exponent).toNat =
        b.mantissa * (den * 2 ^ b.exponent.toNat) := by
      have hpn : (0 : ℚ) < (2 ^ (-b.exponent).toNat : Nat) := by
        exact_mod_cast Nat.two_pow_pos _
      rw [zpow_eq_div, ← mul_div_assoc, div_eq_div_iff hdq.ne' hpn.ne'] at hv
      have hv' : num * 2 ^ (-b.exponent).toNat = b.mantissa * 2 ^ b.exponent.toNat * den := by
        exact_mod_cast hv
      rw [hv', Nat.mul_assoc, Nat.mul_comm den]
    rw [hscale, roundDiv_mul _ (Nat.mul_pos hd (Nat.two_pow_pos _))]

/-- A number with at most `digits` binary digits has a form with exactly as many, unless it is
zero. -/
theorem exists_normal {digits : Nat} {least : Int} {b : Binary} (hdig : 0 < digits)
    (hm : b.mantissa < 2 ^ digits) (hle : least + (digits - 1 : Nat) ≤ b.exponent) :
    ∃ b' : Binary, Normal digits least b' ∧ b'.exponent ≤ b.exponent ∧
      (b'.mantissa : ℚ) * (2 : ℚ) ^ b'.exponent = b.mantissa * (2 : ℚ) ^ b.exponent := by
  by_cases hzero : b.mantissa = 0
  · refine ⟨⟨0, least⟩, ⟨Nat.two_pow_pos _, Int.le_refl _, Or.inr rfl⟩, by simp only; omega, ?_⟩
    rw [hzero, Nat.cast_zero, zero_mul, zero_mul]
  · have hlog : Nat.log2 b.mantissa < digits := (Nat.log2_lt hzero).mpr hm
    have hlow : 2 ^ Nat.log2 b.mantissa ≤ b.mantissa := Nat.log2_self_le hzero
    have hhigh : b.mantissa < 2 ^ (Nat.log2 b.mantissa + 1) := Nat.lt_log2_self
    obtain ⟨s, hs⟩ : ∃ s, s = digits - 1 - Nat.log2 b.mantissa := ⟨_, rfl⟩
    have hfill : 2 ^ (digits - 1) = 2 ^ Nat.log2 b.mantissa * 2 ^ s := by
      rw [← Nat.pow_add]
      congr 1
      omega
    have hfull : 2 ^ digits = 2 ^ (Nat.log2 b.mantissa + 1) * 2 ^ s := by
      rw [← Nat.pow_add]
      congr 1
      omega
    have hpos : 0 < 2 ^ s := Nat.two_pow_pos s
    refine ⟨⟨b.mantissa * 2 ^ s, b.exponent - s⟩, ⟨?_, by simp only; omega, Or.inl ?_⟩,
      by simp only; omega, ?_⟩
    · rw [hfull]
      exact Nat.mul_lt_mul_of_pos_right hhigh hpos
    · rw [hfill]
      exact Nat.mul_le_mul_right _ hlow
    · have h2 : (2 : ℚ) ≠ 0 := by norm_num
      rw [zpow_sub₀ h2, zpow_natCast, Nat.cast_mul, Nat.cast_pow, Nat.cast_ofNat]
      have hs0 : (2 : ℚ) ^ s ≠ 0 := pow_ne_zero s h2
      rw [mul_assoc, mul_div_cancel₀ _ hs0]

end Binary

namespace Double

/-! ## Fields of a pattern -/

theorem toNat_ofFields (negative : Bool) {magnitude : Nat} (h : magnitude < 0x8000000000000000) :
    (ofFields negative magnitude).bits.toNat =
      (if negative then 0x8000000000000000 else 0) + magnitude := by
  unfold ofFields
  simp only
  rw [UInt64.toNat_ofNat']
  apply Nat.mod_eq_of_lt
  split <;> omega

theorem isNegative_ofFields (negative : Bool) {magnitude : Nat}
    (h : magnitude < 0x8000000000000000) : (ofFields negative magnitude).isNegative = negative := by
  unfold isNegative
  rw [toNat_ofFields negative h]
  cases negative
  · have : magnitude / 0x8000000000000000 = 0 := Nat.div_eq_of_lt h
    simp [this]
  · have : (0x8000000000000000 + magnitude) / 0x8000000000000000 = 1 := by omega
    simp [this]

theorem exponentField_ofFields (negative : Bool) {magnitude : Nat}
    (h : magnitude < 0x8000000000000000) :
    (ofFields negative magnitude).exponentField = magnitude / 0x10000000000000 := by
  unfold exponentField
  rw [toNat_ofFields negative h]
  split <;> omega

theorem fractionField_ofFields (negative : Bool) {magnitude : Nat}
    (h : magnitude < 0x8000000000000000) :
    (ofFields negative magnitude).fractionField = magnitude % 0x10000000000000 := by
  unfold fractionField
  rw [toNat_ofFields negative h]
  split <;> omega

/-- The magnitude of a number made of an exponent and a mantissa. -/
theorem magnitude_ofFields (negative : Bool) {b : Binary} (hb : Binary.Normal 53 (-1074) b)
    (he : b.exponent ≤ 971) :
    (ofFields negative ((b.exponent + 1074).toNat * 0x10000000000000 + b.mantissa)).magnitude =
      b := by
  obtain ⟨hfits, hleast, hfull⟩ := hb
  have hlt : (b.exponent + 1074).toNat * 0x10000000000000 + b.mantissa < 0x8000000000000000 := by
    omega
  unfold magnitude
  rw [exponentField_ofFields negative hlt, fractionField_ofFields negative hlt]
  obtain ⟨m, e⟩ := b
  simp only at hfits hleast hfull he hlt ⊢
  split
  · rcases hfull with hfull | hfull
    · omega
    · simp only [Binary.mk.injEq]
      omega
  · simp only [Binary.mk.injEq]
    omega

/-- A pattern below the infinities is finite. -/
theorem exponentField_ofFields_ne (negative : Bool) {magnitude : Nat}
    (h : magnitude < infinityBits) : (ofFields negative magnitude).exponentField ≠ 2047 := by
  unfold infinityBits at h
  rw [exponentField_ofFields negative (by omega)]
  omega

/-- The pattern of a number that four bytes can hold: its sign is kept, it is finite and its value
is the number's. -/
theorem ofFraction_of_normal (negative : Bool) {b : Binary} (hb : Binary.Normal 24 (-149) b)
    (he : b.exponent ≤ 104) :
    ∃ b' : Binary, (ofFraction negative b.fraction.1 b.fraction.2).magnitude = b' ∧
      (b'.mantissa : ℚ) * (2 : ℚ) ^ b'.exponent = b.mantissa * (2 : ℚ) ^ b.exponent ∧
      (ofFraction negative b.fraction.1 b.fraction.2).isNegative = negative ∧
      (ofFraction negative b.fraction.1 b.fraction.2).exponentField ≠ 2047 := by
  have hfits : b.mantissa < 2 ^ 53 := Nat.lt_trans hb.fits (by decide)
  have hleast := hb.least_le
  obtain ⟨b', hb', hle, hval⟩ : ∃ b' : Binary, Binary.Normal 53 (-1074) b' ∧
      b'.exponent ≤ b.exponent ∧
      (b'.mantissa : ℚ) * (2 : ℚ) ^ b'.exponent = b.mantissa * (2 : ℚ) ^ b.exponent :=
    Binary.exists_normal (by omega) hfits (by omega)
  have hfits' := hb'.fits
  have hlt : (b'.exponent + 1074).toNat * 0x10000000000000 + b'.mantissa < infinityBits := by
    unfold infinityBits
    omega
  have hpattern : ofFraction negative b.fraction.1 b.fraction.2 =
      ofFields negative ((b'.exponent + 1074).toNat * 0x10000000000000 + b'.mantissa) := by
    have hv := (Binary.fraction_div b).trans hval.symm
    have hn := Binary.nearest_of_normal hb' (by omega) b.fraction_snd_pos hv
    unfold ofFraction
    rw [hn]
    congr 1
    exact Nat.min_eq_left (by omega)
  rw [hpattern]
  refine ⟨b', magnitude_ofFields negative hb' (by omega), hval, ?_,
    exponentField_ofFields_ne negative hlt⟩
  unfold infinityBits at hlt
  exact isNegative_ofFields negative (by omega)

/-! ## Patterns of four bytes -/

/-- **Widening and narrowing.** A four-byte pattern that is no NaN is the four-byte pattern of the
number it is read as. -/
theorem narrow?_widen (bits : UInt32)
    (h : bits.toNat / 0x800000 % 0x100 = 255 → bits.toNat % 0x800000 = 0) :
    (widen bits).narrow? = some bits := by
  have hbits : bits.toNat < 0x100000000 := bits.toNat_lt
  -- The sign and the rest of the pattern make up the pattern.
  have back (m : Nat) (hm : m = bits.toNat % 0x80000000) :
      UInt32.ofNat ((if bits.toNat / 0x80000000 == 1 then 0x80000000 else 0) + m) = bits := by
    apply UInt32.toNat_inj.mp
    rw [UInt32.toNat_ofNat', hm]
    by_cases hs : bits.toNat / 0x80000000 = 1
    · simp only [hs, beq_self_eq_true, if_true]
      omega
    · simp only [beq_iff_eq, hs, if_false]
      omega
  unfold widen
  simp only
  by_cases hexp : bits.toNat / 0x800000 % 0x100 = 255
  · have hinf : infinityBits < 0x8000000000000000 := by decide
    have hfield : (ofFields (bits.toNat / 0x80000000 == 1) infinityBits).exponentField = 2047 :=
      exponentField_ofFields _ hinf
    have hfrac : (ofFields (bits.toNat / 0x80000000 == 1) infinityBits).fractionField = 0 :=
      fractionField_ofFields _ hinf
    rw [if_pos hexp, if_pos (h hexp)]
    unfold narrow? isNaN isInfinite
    simp only [hfield, hfrac, isNegative_ofFields _ hinf]
    simp only [beq_self_eq_true, bne_self_eq_false, Bool.and_false, Bool.and_true,
      Bool.false_eq_true, if_true, if_false]
    rw [back _ (by omega)]
  · rw [if_neg hexp]
    obtain ⟨b, hbdef⟩ : ∃ b : Binary,
        b = if bits.toNat / 0x800000 % 0x100 = 0 then ⟨bits.toNat % 0x800000, -149⟩
          else ⟨0x800000 + bits.toNat % 0x800000, (bits.toNat / 0x800000 % 0x100 : Nat) - 150⟩ :=
      ⟨_, rfl⟩
    rw [← hbdef]
    have hb : Binary.Normal 24 (-149) b := by
      rw [hbdef]
      split
      · exact ⟨by simp only; omega, by simp only; omega, Or.inr rfl⟩
      · exact ⟨by simp only; omega, by simp only; omega, Or.inl (by simp only; omega)⟩
    have he : b.exponent ≤ 104 := by
      rw [hbdef]
      split <;> simp only <;> omega
    have hm : (b.exponent + 149).toNat * 0x800000 + b.mantissa = bits.toNat % 0x80000000 := by
      rw [hbdef]
      split <;> simp only <;> omega
    obtain ⟨b', hmag, hval, hneg, hfin⟩ :=
      ofFraction_of_normal (bits.toNat / 0x80000000 == 1) hb he
    have hnear : Binary.nearest 24 (-149) b'.fraction.1 b'.fraction.2 =
        bits.toNat % 0x80000000 := by
      rw [← hm]
      exact Binary.nearest_of_normal hb (by omega) b'.fraction_snd_pos
        ((Binary.fraction_div b').trans hval)
    have hsmall : bits.toNat % 0x80000000 < 0x7f800000 := by omega
    unfold narrow? isNaN isInfinite
    simp only [hmag, hneg, hnear, beq_eq_false_iff_ne.mpr hfin, hsmall, Bool.false_and,
      Bool.false_eq_true, if_false, if_true]
    rw [back _ rfl]

/-- A pattern that is read as a number other than a NaN is no NaN's. -/
theorem fraction_eq_zero_of_not_isNaN {bits : UInt32} (h : ¬ (widen bits).isNaN)
    (he : bits.toNat / 0x800000 % 0x100 = 255) : bits.toNat % 0x800000 = 0 := by
  by_contra hf
  apply h
  unfold widen
  simp only
  rw [if_pos he, if_neg hf]
  have hlt : 0x7ff8000000000000 + bits.toNat % 0x800000 % 0x400000 * 0x20000000 <
      0x8000000000000000 := by omega
  unfold isNaN
  rw [exponentField_ofFields _ hlt, fractionField_ofFields _ hlt]
  simp only [Bool.and_eq_true, beq_iff_eq, bne_iff_ne]
  omega

/-! ## Narrow numbers -/

/-- Whether a number has a four-byte pattern, so that four bytes represent it exactly. -/
def IsNarrow (d : Double) : Prop :=
  ∃ bits, widen bits = d

/-- A NaN that is widened keeps its sign and its payload, and becomes quiet. -/
theorem widen_eq_of_nan {bits : UInt32} (he : bits.toNat / 0x800000 % 0x100 = 255)
    (hf : bits.toNat % 0x800000 ≠ 0) : widen bits = ofFields (bits.toNat / 0x80000000 == 1)
      (0x7ff8000000000000 + bits.toNat % 0x400000 * 0x20000000) := by
  unfold widen
  simp only
  rw [if_pos he, if_neg hf]
  congr 3
  omega

/-- **Narrow numbers.** A number with a four-byte pattern is read from the pattern it is written
as. -/
theorem IsNarrow.exists_narrow? {d : Double} (h : d.IsNarrow) :
    ∃ bits, d.narrow? = some bits ∧ widen bits = d := by
  obtain ⟨bits, rfl⟩ := h
  by_cases hnan : bits.toNat / 0x800000 % 0x100 = 255 ∧ bits.toNat % 0x800000 ≠ 0
  · -- A NaN that is read is quiet, and its pattern is that of the quiet NaN.
    obtain ⟨he, hf⟩ := hnan
    have hbits : bits.toNat < 0x100000000 := bits.toNat_lt
    rw [widen_eq_of_nan he hf]
    have hlt : 0x7ff8000000000000 + bits.toNat % 0x400000 * 0x20000000 < 0x8000000000000000 := by
      omega
    generalize hn : (bits.toNat / 0x80000000 == 1) = negative
    have hquiet : (ofFields negative
        (0x7ff8000000000000 + bits.toNat % 0x400000 * 0x20000000)).narrow? =
        some (UInt32.ofNat ((if negative then 0x80000000 else 0) +
          (0x7fc00000 + bits.toNat % 0x400000))) := by
      unfold narrow? isNaN
      simp only [exponentField_ofFields _ hlt, fractionField_ofFields _ hlt,
        isNegative_ofFields _ hlt]
      rw [if_pos (by simp; omega)]
      congr 3
      omega
    refine ⟨_, hquiet, ?_⟩
    have hback : (UInt32.ofNat ((if negative then 0x80000000 else 0) +
        (0x7fc00000 + bits.toNat % 0x400000))).toNat =
          (if negative then 0x80000000 else 0) + (0x7fc00000 + bits.toNat % 0x400000) := by
      have hsize : (if negative then 0x80000000 else 0) + (0x7fc00000 + bits.toNat % 0x400000) <
          2 ^ 32 := by
        split <;> omega
      exact UInt32.toNat_ofNat_of_lt' hsize
    rw [widen_eq_of_nan (by rw [hback]; split <;> omega) (by rw [hback]; split <;> omega), hback]
    refine congrArg₂ ofFields ?_ ?_
    · cases negative with
      | false => exact beq_eq_false_iff_ne.mpr (by simp only [Bool.false_eq_true, if_false]; omega)
      | true => exact beq_iff_eq.mpr (by simp only [if_true]; omega)
    · split <;> omega
  · refine ⟨bits, narrow?_widen bits fun he => ?_, rfl⟩
    by_contra hf
    exact hnan ⟨he, hf⟩

end Double

end Unscript.Number
