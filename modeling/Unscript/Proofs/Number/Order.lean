import Unscript.Proofs.Number.Widening

/-!
# Rounding keeps order

A greater number is never rounded to a smaller one. Numbers whose mantissa fits are not rounded at
all, so a bound that is such a number also bounds what is rounded.

* `Double.magnitudeOf`: what a pattern stands for.
* `Double.patternOf`: the pattern of the magnitude nearest to a rational.

Results:
* `roundDiv_mono`, `Binary.nearest_mono`: a greater quotient is rounded to no smaller one, and has
  no smaller pattern.
* `Double.toRat_ofRat_mono`: nor is the number nearest to it smaller.
* `Double.toRat_ofRat_of_fits`, `Double.toRat_ofRat_natCast`: numbers that are not rounded.
-/

namespace Unscript.Number

-- Powers are those of `NatPow`, whichever other instances a proof brings into scope.
attribute [local instance (1100)] instPowNat

/-- Rounding a quotient keeps order. -/
theorem roundDiv_mono {a b a' b' : Nat} (hb : 0 < b) (hb' : 0 < b') (h : a * b' ≤ a' * b) :
    roundDiv a b ≤ roundDiv a' b' := by
  have ha := Nat.div_add_mod a b
  have ha' := Nat.div_add_mod a' b'
  have hq : a / b ≤ a' / b' := by
    rw [Nat.le_div_iff_mul_le hb']
    refine Nat.le_of_mul_le_mul_right ?_ hb
    calc a / b * b' * b = a / b * b * b' := Nat.mul_right_comm _ _ _
      _ ≤ a * b' := Nat.mul_le_mul_right _ (Nat.div_mul_le_self a b)
      _ ≤ a' * b := h
  rcases Nat.lt_or_eq_of_le hq with hlt | heq
  · unfold roundDiv
    dsimp only
    split <;> split <;> omega
  · -- The same whole part: it is the remainders that are compared.
    have hr : a % b * b' ≤ a' % b' * b := by
      have hsplit : a * b' = a / b * b * b' + a % b * b' := by
        rw [← Nat.add_mul, Nat.mul_comm (a / b), ha]
      have hsplit' : a' * b = a / b * b * b' + a' % b' * b := by
        rw [Nat.mul_right_comm, ← Nat.add_mul, heq, Nat.mul_comm (a' / b'), ha']
      omega
    have hup : b < 2 * (a % b) → b' < 2 * (a' % b') := by
      intro hlt
      refine Nat.lt_of_mul_lt_mul_right (a := b) ?_
      calc b' * b = b * b' := Nat.mul_comm _ _
        _ < 2 * (a % b) * b' := Nat.mul_lt_mul_of_pos_right hlt hb'
        _ ≤ 2 * (a' % b') * b := by rw [Nat.mul_assoc, Nat.mul_assoc]; omega
    have htie : b = 2 * (a % b) → b' ≤ 2 * (a' % b') := by
      intro heven
      refine Nat.le_of_mul_le_mul_right (c := b) ?_ hb
      calc b' * b = 2 * (a % b) * b' := by rw [← heven, Nat.mul_comm]
        _ ≤ 2 * (a' % b') * b := by rw [Nat.mul_assoc, Nat.mul_assoc]; omega
    unfold roundDiv
    dsimp only
    rw [heq]
    split
    · rename_i hcond
      rw [if_pos]
      rcases hcond with hlt | ⟨heven, hodd⟩
      · exact Or.inl (hup hlt)
      · rcases Nat.lt_or_eq_of_le (htie heven) with hlt | htie
        · exact Or.inl hlt
        · exact Or.inr ⟨htie, hodd⟩
    · split <;> omega

/-- A quotient that is at most a whole number is rounded to at most that. -/
theorem roundDiv_le {a b k : Nat} (hb : 0 < b) (h : a ≤ k * b) : roundDiv a b ≤ k := by
  rw [← roundDiv_mul k hb]
  exact roundDiv_mono hb hb (Nat.mul_le_mul_right b h)

/-- A quotient that is at least a whole number is rounded to at least that. -/
theorem le_roundDiv {a b k : Nat} (hb : 0 < b) (h : k * b ≤ a) : k ≤ roundDiv a b := by
  rw [← roundDiv_mul k hb]
  exact roundDiv_mono hb hb (Nat.mul_le_mul_right b h)

namespace Binary

variable {digits num den num' den' : Nat} {least : Int}

/-- A quotient in units of a power of two. -/
theorem scaled_div (num den : Nat) (e : Int) :
    ((num * 2 ^ (-e).toNat : Nat) : ℚ) / (den * 2 ^ e.toNat : Nat) = (num : ℚ) / den / (2 : ℚ) ^ e := by
  rw [zpow_eq_div]
  push_cast
  rw [div_div_div_eq]

/-- The mantissa that rounding gives for an exponent keeps order. -/
theorem roundDiv_scaled_mono (hd : 0 < den) (hd' : 0 < den') (h : (num : ℚ) / den ≤ num' / den')
    (e : Int) :
    roundDiv (num * 2 ^ (-e).toNat) (den * 2 ^ e.toNat) ≤
      roundDiv (num' * 2 ^ (-e).toNat) (den' * 2 ^ e.toNat) := by
  have hp : 0 < den * 2 ^ e.toNat := Nat.mul_pos hd (Nat.two_pow_pos _)
  have hp' : 0 < den' * 2 ^ e.toNat := Nat.mul_pos hd' (Nat.two_pow_pos _)
  refine roundDiv_mono hp hp' ?_
  have hscaled := div_le_div_of_nonneg_right h (zpow_nonneg (by norm_num : (0 : ℚ) ≤ 2) e)
  rw [← scaled_div, ← scaled_div,
    div_le_div_iff₀ (by exact_mod_cast hp) (by exact_mod_cast hp')] at hscaled
  exact_mod_cast hscaled

/-- The mantissa is at most a power of two that the number is at most. -/
theorem roundDiv_scaled_le (hd : 0 < den) {e : Int} {k : Nat}
    (h : (num : ℚ) / den ≤ (2 : ℚ) ^ (e + k)) :
    roundDiv (num * 2 ^ (-e).toNat) (den * 2 ^ e.toNat) ≤ 2 ^ k := by
  have hp : 0 < den * 2 ^ e.toNat := Nat.mul_pos hd (Nat.two_pow_pos _)
  have h2 : (0 : ℚ) < (2 : ℚ) ^ e := zpow_pos (by norm_num) e
  refine roundDiv_le hp ?_
  rw [zpow_add₀ (by norm_num), zpow_natCast, ← div_le_iff₀' h2, ← scaled_div,
    div_le_iff₀ (by exact_mod_cast hp)] at h
  exact_mod_cast h

theorem le_roundDiv_scaled (hd : 0 < den) {e : Int} {k : Nat}
    (h : (2 : ℚ) ^ (e + k) ≤ (num : ℚ) / den) :
    2 ^ k ≤ roundDiv (num * 2 ^ (-e).toNat) (den * 2 ^ e.toNat) := by
  have hp : 0 < den * 2 ^ e.toNat := Nat.mul_pos hd (Nat.two_pow_pos _)
  have h2 : (0 : ℚ) < (2 : ℚ) ^ e := zpow_pos (by norm_num) e
  refine le_roundDiv hp ?_
  rw [zpow_add₀ (by norm_num), zpow_natCast, ← le_div_iff₀' h2, ← scaled_div,
    le_div_iff₀ (by exact_mod_cast hp)] at h
  exact_mod_cast h

/-- **Rounding keeps order**: a greater number has no smaller pattern. -/
theorem nearest_mono (hdig : 0 < digits) (hd : 0 < den) (hd' : 0 < den')
    (h : (num : ℚ) / den ≤ num' / den') :
    nearest digits least num den ≤ nearest digits least num' den' := by
  have hdq : (0 : ℚ) < den := by exact_mod_cast hd
  have hdq' : (0 : ℚ) < den' := by exact_mod_cast hd'
  by_cases hzero : num = 0
  · unfold nearest
    rw [if_pos hzero]
    exact Nat.zero_le _
  have hq : (0 : ℚ) < (num : ℚ) / den :=
    div_pos (by exact_mod_cast Nat.pos_of_ne_zero hzero) hdq
  have hq' : (0 : ℚ) < (num' : ℚ) / den' := hq.trans_le h
  have hzero' : num' ≠ 0 := by
    rintro rfl
    simp at hq'
  have hlog := Int.log_mono_right (b := 2) hq h
  have habove := Int.lt_zpow_succ_log_self (b := 2) (by norm_num) ((num : ℚ) / den)
  have hbelow := Int.zpow_log_le_self (b := 2) (by norm_num) hq'
  rw [Nat.cast_ofNat] at habove hbelow
  unfold nearest
  rw [if_neg hzero, if_neg hzero']
  dsimp only
  rw [exponentOf_eq_log (Nat.pos_of_ne_zero hzero) hd,
    exponentOf_eq_log (Nat.pos_of_ne_zero hzero') hd']
  generalize Int.log 2 ((num : ℚ) / den) = l at *
  generalize Int.log 2 ((num' : ℚ) / den') = l' at *
  rcases eq_or_lt_of_le (max_le_max_right least (sub_le_sub_right hlog ((digits - 1 : Nat) : Int)))
    with heq | hlt
  · -- The same exponent: it is the mantissas that are compared.
    rw [heq]
    exact Nat.add_le_add_left (roundDiv_scaled_mono hd hd' h _) _
  · -- A mantissa carries into the next exponent at most, whose mantissas are filled up.
    have hfits := roundDiv_scaled_le (k := digits) hd (habove.le.trans
      (zpow_le_zpow_right₀ (by norm_num)
        (show l + 1 ≤ max (l - (digits - 1 : Nat)) least + digits by omega)))
    have hfull := le_roundDiv_scaled (k := digits - 1) hd' (e := max (l' - (digits - 1 : Nat)) least)
      (hbelow.trans' (zpow_le_zpow_right₀ (by norm_num) (by omega)))
    have hpow : 2 ^ digits = 2 * 2 ^ (digits - 1) := by
      rw [← Nat.pow_succ', Nat.succ_eq_add_one, Nat.sub_add_cancel hdig]
    have hsteps : (max (l - (digits - 1 : Nat)) least - least).toNat + 1 ≤
        (max (l' - (digits - 1 : Nat)) least - least).toNat := by omega
    have hcarry := Nat.mul_le_mul_right (2 ^ (digits - 1)) hsteps
    rw [Nat.add_mul, Nat.one_mul] at hcarry
    omega

end Binary

namespace Binary

theorem toRat_eq (b : Binary) : b.toRat = b.mantissa * (2 : ℚ) ^ b.exponent := by
  unfold toRat
  rw [Rat.mkRat_eq_div, ← fraction_div, Int.cast_natCast]

end Binary

namespace Double

/-! ## Values of patterns -/

/-- The magnitude that a pattern below the sign bit stands for. -/
def magnitudeOf (pattern : Nat) : Binary :=
  if pattern / 0x10000000000000 = 0 then ⟨pattern % 0x10000000000000, -1074⟩
  else ⟨0x10000000000000 + pattern % 0x10000000000000, (pattern / 0x10000000000000 : Nat) - 1075⟩

theorem magnitude_eq (negative : Bool) {pattern : Nat} (h : pattern < 0x8000000000000000) :
    (ofFields negative pattern).magnitude = magnitudeOf pattern := by
  unfold magnitude magnitudeOf
  rw [exponentField_ofFields negative h, fractionField_ofFields negative h]

theorem toRat_ofFields (negative : Bool) {pattern : Nat} (h : pattern < 0x8000000000000000) :
    (ofFields negative pattern).toRat =
      if negative then -(magnitudeOf pattern).toRat else (magnitudeOf pattern).toRat := by
  unfold toRat
  rw [isNegative_ofFields negative h, magnitude_eq negative h]

theorem magnitudeOf_toRat_nonneg (pattern : Nat) : 0 ≤ (magnitudeOf pattern).toRat := by
  rw [Binary.toRat_eq]
  exact mul_nonneg (Nat.cast_nonneg _) (zpow_nonneg (by norm_num) _)

/-- A greater pattern stands for a greater magnitude. -/
theorem magnitudeOf_strictMono : StrictMono fun p => (magnitudeOf p).toRat := by
  intro p p' h
  dsimp only
  rw [Binary.toRat_eq, Binary.toRat_eq]
  have hdiv := Nat.div_le_div_right (c := 0x10000000000000) h.le
  have hp := Nat.mod_lt p (show 0x10000000000000 > 0 by decide)
  have hsplit := Nat.div_add_mod p 0x10000000000000
  have hsplit' := Nat.div_add_mod p' 0x10000000000000
  unfold magnitudeOf
  generalize p / 0x10000000000000 = e, p % 0x10000000000000 = f,
    p' / 0x10000000000000 = e', p' % 0x10000000000000 = f' at *
  rcases Nat.lt_or_eq_of_le hdiv with hlt | rfl
  · -- Below a step of the exponent, a mantissa is less than two steps' worth.
    rw [if_neg (show e' ≠ 0 by omega)]
    have hpow : (0 : ℚ) < (2 : ℚ) ^ ((e : Int) - 1074) := zpow_pos (by norm_num) _
    have hstep : (2 : ℚ) ^ ((e : Int) - 1074) ≤ (2 : ℚ) ^ ((e' : Int) - 1075) :=
      zpow_le_zpow_right₀ (by norm_num) (by omega)
    calc (((if e = 0 then (⟨f, -1074⟩ : Binary)
            else ⟨0x10000000000000 + f, (e : Int) - 1075⟩).mantissa : Nat) : ℚ) *
          (2 : ℚ) ^ (if e = 0 then (⟨f, -1074⟩ : Binary)
            else ⟨0x10000000000000 + f, (e : Int) - 1075⟩).exponent
        < 0x10000000000000 * (2 : ℚ) ^ ((e : Int) - 1074) := by
          split
          · subst_vars
            have hf : (f : ℚ) < 0x10000000000000 := by exact_mod_cast hp
            simpa using mul_lt_mul_of_pos_right hf hpow
          · have hf : ((0x10000000000000 + f : Nat) : ℚ) < 0x10000000000000 * 2 := by
              exact_mod_cast (show 0x10000000000000 + f < 0x10000000000000 * 2 by omega)
            have htwo : (2 : ℚ) ^ ((e : Int) - 1074) = 2 * (2 : ℚ) ^ ((e : Int) - 1075) := by
              rw [show (e : Int) - 1074 = 1 + ((e : Int) - 1075) by ring, zpow_add₀ (by norm_num),
                zpow_one]
            rw [htwo, ← mul_assoc]
            exact mul_lt_mul_of_pos_right hf (zpow_pos (by norm_num) _)
      _ ≤ ((0x10000000000000 + f' : Nat) : ℚ) * (2 : ℚ) ^ ((e' : Int) - 1075) := by
          refine mul_le_mul ?_ hstep hpow.le (Nat.cast_nonneg _)
          exact_mod_cast Nat.le_add_right _ _
  · have hf : f < f' := by omega
    split
    · exact mul_lt_mul_of_pos_right (by exact_mod_cast hf) (zpow_pos (by norm_num) _)
    · refine mul_lt_mul_of_pos_right ?_ (zpow_pos (by norm_num) _)
      exact_mod_cast Nat.add_lt_add_left hf _

theorem magnitudeOf_mono {p p' : Nat} (h : p ≤ p') :
    (magnitudeOf p).toRat ≤ (magnitudeOf p').toRat :=
  magnitudeOf_strictMono.monotone h

/-! ## The nearest number -/

/-- The pattern of the magnitude nearest to that of a rational. -/
def patternOf (q : ℚ) : Nat :=
  min (Binary.nearest 53 (-1074) q.num.natAbs q.den) infinityBits

theorem patternOf_lt (q : ℚ) : patternOf q < 0x8000000000000000 :=
  Nat.lt_of_le_of_lt (Nat.min_le_right _ _) (by decide)

theorem natAbs_div_den (q : ℚ) : (q.num.natAbs : ℚ) / q.den = |q| := by
  rw [Nat.cast_natAbs, Int.cast_abs, ← Nat.abs_cast q.den, ← abs_div, Rat.num_div_den]

theorem patternOf_mono {a b : ℚ} (h : |a| ≤ |b|) : patternOf a ≤ patternOf b := by
  rw [← natAbs_div_den, ← natAbs_div_den] at h
  exact min_le_min_right _ (Binary.nearest_mono (by decide) a.den_pos b.den_pos h)

theorem toRat_ofRat_eq (q : ℚ) : (ofRat q).toRat =
    if q < 0 then -(magnitudeOf (patternOf q)).toRat else (magnitudeOf (patternOf q)).toRat := by
  have hofRat : ofRat q = ofFields (q < 0) (patternOf q) := rfl
  rw [hofRat, toRat_ofFields _ (patternOf_lt q)]
  simp only [decide_eq_true_eq]

theorem toRat_ofRat_nonneg {q : ℚ} (h : 0 ≤ q) : 0 ≤ (ofRat q).toRat := by
  rw [toRat_ofRat_eq, if_neg (not_lt.mpr h)]
  exact magnitudeOf_toRat_nonneg _

/-- A number that is not below zero is the only one of its value. -/
theorem ofRat_eq_of_toRat_eq {a b : ℚ} (ha : 0 ≤ a) (hb : 0 ≤ b)
    (h : (ofRat a).toRat = (ofRat b).toRat) : ofRat a = ofRat b := by
  rw [toRat_ofRat_eq, toRat_ofRat_eq, if_neg (not_lt.mpr ha), if_neg (not_lt.mpr hb)] at h
  have hpattern : patternOf a = patternOf b := magnitudeOf_strictMono.injective h
  change ofFields (a < 0) (patternOf a) = ofFields (b < 0) (patternOf b)
  rw [hpattern, decide_eq_false (not_lt.mpr ha), decide_eq_false (not_lt.mpr hb)]

/-- **Rounding keeps order.** -/
theorem toRat_ofRat_mono {a b : ℚ} (h : a ≤ b) : (ofRat a).toRat ≤ (ofRat b).toRat := by
  have hb := magnitudeOf_toRat_nonneg (patternOf b)
  have ha := magnitudeOf_toRat_nonneg (patternOf a)
  rw [toRat_ofRat_eq, toRat_ofRat_eq]
  split <;> split
  · rename_i hna hnb
    refine neg_le_neg (magnitudeOf_mono (patternOf_mono ?_))
    rw [abs_of_neg hna, abs_of_neg hnb]
    exact neg_le_neg h
  · exact (neg_nonpos.mpr ha).trans hb
  · rename_i hna hnb
    exact absurd (h.trans_lt hnb) hna
  · rename_i hna hnb
    refine magnitudeOf_mono (patternOf_mono ?_)
    rwa [abs_of_nonneg (not_lt.mp hna), abs_of_nonneg (not_lt.mp hnb)]

/-- **Exact numbers are not rounded.** -/
theorem toRat_ofRat_of_fits {m : Nat} {e : Int} (hm : m < 2 ^ 53) (hlow : -1022 ≤ e)
    (hhigh : e ≤ 971) : (ofRat (m * (2 : ℚ) ^ e)).toRat = m * (2 : ℚ) ^ e := by
  have hq : (0 : ℚ) ≤ m * (2 : ℚ) ^ e :=
    mul_nonneg (Nat.cast_nonneg _) (zpow_nonneg (by norm_num) _)
  obtain ⟨b, hb, hle, hval⟩ : ∃ b : Binary, Binary.Normal 53 (-1074) b ∧ b.exponent ≤ e ∧
      (b.mantissa : ℚ) * (2 : ℚ) ^ b.exponent = m * (2 : ℚ) ^ e :=
    Binary.exists_normal (b := ⟨m, e⟩) (by decide) hm (by simp only; omega)
  have hfits := hb.fits
  have hleast := hb.least_le
  have hdiv : (((m : ℚ) * (2 : ℚ) ^ e).num.natAbs : ℚ) / ((m : ℚ) * (2 : ℚ) ^ e).den =
      b.mantissa * (2 : ℚ) ^ b.exponent := by rw [natAbs_div_den, abs_of_nonneg hq, hval]
  have hnearest := Binary.nearest_of_normal hb (by decide) (Rat.den_pos _) hdiv
  have hpattern : patternOf ((m : ℚ) * (2 : ℚ) ^ e) =
      (b.exponent + 1074).toNat * 0x10000000000000 + b.mantissa := by
    unfold patternOf infinityBits
    rw [hnearest, Int.sub_neg]
    exact Nat.min_eq_left (by omega)
  have hlt := patternOf_lt ((m : ℚ) * (2 : ℚ) ^ e)
  rw [hpattern] at hlt
  rw [toRat_ofRat_eq, if_neg (not_lt.mpr hq), hpattern, ← magnitude_eq false hlt,
    magnitude_ofFields false hb (by omega), Binary.toRat_eq, hval]

theorem toRat_ofRat_natCast {n : Nat} (h : n < 2 ^ 53) : (ofRat n).toRat = n := by
  simpa using toRat_ofRat_of_fits (e := 0) h (by decide) (by decide)

end Double

end Unscript.Number
