import Unscript.Proofs.Detection.Score
import Mathlib.Algebra.Order.BigOperators.Group.List

/-!
# The exact score

Without rounding a score is a share of the probed functions: it lies between zero and one, whatever
the payload and the dialect. It is one only if nothing is missing: what stands before the functions
can be read, and every probed function is decoded without error and has legal operations only. There
is always a function to divide by.

* `Score.HeaderRead`: what stands before the functions can be read.
* `Score.Faultless`: all probed functions are decoded without error, with legal operations only.

Results:
* `Score.sum_le_length`, `Score.sum_eq_length_iff`: sums of points.
* `Score.points_eq_one_iff`: when a function counts a whole point.
* `Score.mean_congr`: nothing is divided by zero.
* `Score.exact_probed`: the bounds of the exact score, and when it is one.
-/

namespace Unscript.Score

variable {d : Dialect} {payload : List UInt8} {probe : Probe} {s : Script} {f : Function}

/-- What stands before the functions of a payload can be read. -/
def HeaderRead (d : Dialect) (payload : List UInt8) : Prop :=
  (Decode.preamble d (Cursor.ofBytes payload)).2.1 = none

/-- The probed functions of a unit are all decoded, without error and with legal operations only. -/
def Faultless (d : Dialect) (probe : Probe) (s : Script) : Prop :=
  ∀ i < min s.functionCount probe.functions, ∃ f, s.functions[i]? = some f ∧
    f.error = none ∧ ∀ inst ∈ f.instructions, d.isLegal inst.mnemonic

/-! ## Sums of points -/

/-- A sum of points is no more than their count. -/
theorem sum_le_length {ps : List ℚ} (hps : ∀ p ∈ ps, p ≤ 1) : ps.sum ≤ ps.length := by
  simpa using List.sum_le_card_nsmul ps 1 hps

/-- A sum of points is their count only if all are whole. -/
theorem sum_eq_length_iff {ps : List ℚ} (hps : ∀ p ∈ ps, p ≤ 1) :
    ps.sum = ps.length ↔ ∀ p ∈ ps, p = 1 := by
  induction ps with
  | nil => simp
  | cons p ps ih =>
    obtain ⟨hp, hps⟩ := List.forall_mem_cons.mp hps
    have hle := sum_le_length hps
    rw [List.sum_cons, List.length_cons, List.forall_mem_cons, ← ih hps]
    push_cast
    constructor
    · intro heq
      exact ⟨by linarith, by linarith⟩
    · rintro ⟨rfl, heq⟩
      rw [heq, add_comm]

/-! ## Functions -/

theorem isClean_iff : isClean d f = true ↔
    f.error = none ∧ ∀ i ∈ f.instructions, d.isLegal i.mnemonic := by
  have hlegal : illegalCount d f = 0 ↔ ∀ i ∈ f.instructions, d.isLegal i.mnemonic := by
    unfold illegalCount
    rw [List.countP_eq_zero]
    simp
  unfold isClean Function.complete
  rw [Bool.and_eq_true, beq_iff_eq, hlegal, Option.isNone_iff_eq_none]

/-- **A whole point** is for a function without error and with legal operations only. -/
theorem points_eq_one_iff : points d f = 1 ↔
    f.error = none ∧ ∀ i ∈ f.instructions, d.isLegal i.mnemonic := by
  rw [← isClean_iff]
  unfold points
  split
  · rename_i hclean
    exact iff_of_true rfl hclean
  · rename_i hclean
    refine iff_of_false (ne_of_lt ?_) hclean
    have hle : ((f.instructions.length - illegalCount d f : Nat) : ℚ) ≤ f.instructions.length := by
      exact_mod_cast Nat.sub_le _ _
    have hpos : (0 : ℚ) < (f.instructions.length + 1 : Nat) := by positivity
    rw [div_lt_one hpos]
    push_cast
    linarith [(Nat.cast_nonneg f.instructions.length : (0 : ℚ) ≤ f.instructions.length)]

/-! ## Units -/

theorem exact_eq (probe : Probe) (s : Script) :
    exact probe s =
      if s.fault.isSome && s.functions.isEmpty then 0
      else if min s.functionCount probe.functions = 0 then
        if s.fault.isNone then 1 else 0
      else (s.functions.map (points s.dialect)).sum /
        (min s.functionCount probe.functions : Nat) := by
  unfold exact mean
  split
  · rfl
  · split
    · rename_i hzero
      rw [if_pos hzero]
    · rename_i hne
      rw [if_neg hne, List.sum_eq_foldl, List.foldl_map]

/-- **Nothing is divided by zero**: the score is the same whatever that gives. -/
theorem mean_congr {divide : ℚ → Nat → ℚ} (hdivide : ∀ total n, n ≠ 0 → divide total n = total / n) :
    mean 0 1 (· + ·) divide probe s = exact probe s := by
  unfold exact mean
  split
  · rfl
  · split
    · rfl
    · rename_i hne
      exact hdivide _ _ hne

/-- The mean of the points is one only if all probed functions are there and count whole points. -/
theorem share_eq_one_iff (hle : s.functions.length ≤ min s.functionCount probe.functions)
    (hpos : min s.functionCount probe.functions ≠ 0) :
    (s.functions.map (points s.dialect)).sum / (min s.functionCount probe.functions : Nat) = 1 ↔
      Faultless s.dialect probe s := by
  have hpoints : ∀ p ∈ s.functions.map (points s.dialect), p ≤ 1 :=
    List.forall_mem_map.mpr fun f _ => points_le_one _ f
  have hsum := sum_le_length hpoints
  have hall := sum_eq_length_iff hpoints
  rw [List.forall_mem_map] at hall
  rw [List.length_map] at hsum hall
  unfold Faultless
  generalize min s.functionCount probe.functions = n at *
  have hleq : (s.functions.length : ℚ) ≤ n := by exact_mod_cast hle
  rw [div_eq_one_iff_eq (by exact_mod_cast hpos)]
  constructor
  · intro heq i hi
    have hlen : s.functions.length = n := by
      exact_mod_cast le_antisymm hleq (heq ▸ hsum)
    have hwhole := hall.mp (by rw [heq, hlen])
    rw [← hlen] at hi
    exact ⟨_, List.getElem?_eq_getElem hi, points_eq_one_iff.mp (hwhole _ (List.getElem_mem hi))⟩
  · intro hfaultless
    have hlen : s.functions.length = n := by
      by_contra hne
      obtain ⟨f, hf, -⟩ := hfaultless _ (lt_of_le_of_ne hle hne)
      rw [List.getElem?_eq_none (le_refl _)] at hf
      cases hf
    rw [← hlen]
    refine hall.mpr fun f hf => ?_
    obtain ⟨i, hi, rfl⟩ := List.mem_iff_getElem.mp hf
    obtain ⟨g, hg, hclean⟩ := hfaultless i (hlen ▸ hi)
    rw [List.getElem?_eq_getElem hi] at hg
    obtain rfl := Option.some.inj hg
    exact points_eq_one_iff.mpr hclean

theorem exact_nonneg (probe : Probe) (s : Script) : 0 ≤ exact probe s := by
  rw [exact_eq]
  split_ifs
  · exact le_refl _
  · exact zero_le_one
  · exact le_refl _
  · refine div_nonneg (List.sum_nonneg ?_) (Nat.cast_nonneg _)
    exact List.forall_mem_map.mpr fun f _ => points_nonneg _ f

theorem exact_le_one (hle : s.functions.length ≤ min s.functionCount probe.functions) :
    exact probe s ≤ 1 := by
  rw [exact_eq]
  split_ifs with hempty hzero
  · exact zero_le_one
  · exact le_refl _
  · exact zero_le_one
  · have hpoints : ∀ p ∈ s.functions.map (points s.dialect), p ≤ 1 :=
      List.forall_mem_map.mpr fun f _ => points_le_one _ f
    have hsum := sum_le_length hpoints
    have hpos : (0 : ℚ) < (min s.functionCount probe.functions : Nat) := by
      exact_mod_cast Nat.pos_of_ne_zero hzero
    rw [List.length_map] at hsum
    exact (div_le_one hpos).mpr (hsum.trans (by exact_mod_cast hle))

/-! ## Payloads -/

theorem dialect_probed (d : Dialect) (probe : Probe) (payload : List UInt8) :
    (probed d probe payload).dialect = d := by
  unfold probed Script.decode
  split <;> rfl

/-- Without its header a payload has a fault and no functions. -/
theorem exact_of_not_headerRead (h : ¬ HeaderRead d payload) :
    exact probe (probed d probe payload) = 0 := by
  unfold HeaderRead at h
  have hfault : (probed d probe payload).fault.isSome ∧ (probed d probe payload).functions = [] := by
    unfold probed Script.decode
    split
    · exact ⟨rfl, rfl⟩
    · rename_i hread
      rw [hread] at h
      exact absurd rfl h
  rw [exact_eq, if_pos]
  rw [hfault.1, hfault.2]
  rfl

/-- With its header a payload has a fault only if there are functions to probe. -/
theorem fault_of_headerRead (probe : Probe) (h : HeaderRead d payload)
    (hzero : min (probed d probe payload).functionCount probe.functions = 0) :
    (probed d probe payload).fault = none := by
  unfold HeaderRead at h
  unfold probed at hzero ⊢
  unfold Script.decode at hzero ⊢
  split
  · rename_i hread
    rw [hread] at h
    cases h
  · rename_i hread
    rw [hread] at hzero
    dsimp only at hzero ⊢
    rw [hzero]
    simp [Decode.functions]

/-- **The exact score** of a payload lies between zero and one, for every dialect and every probe.
It is one if and only if what stands before the functions can be read and every probed function is
decoded without error and has only operations that the dialect can have. Nothing is divided by
zero. -/
theorem exact_probed (d : Dialect) (probe : Probe) (payload : List UInt8) :
    (0 ≤ exact probe (probed d probe payload) ∧ exact probe (probed d probe payload) ≤ 1) ∧
    (exact probe (probed d probe payload) = 1 ↔
      HeaderRead d payload ∧ Faultless d probe (probed d probe payload)) ∧
    ∀ divide : ℚ → Nat → ℚ, (∀ total n, n ≠ 0 → divide total n = total / n) →
      mean 0 1 (· + ·) divide probe (probed d probe payload) =
        exact probe (probed d probe payload) := by
  have hle : (probed d probe payload).functions.length ≤
      min (probed d probe payload).functionCount probe.functions :=
    Script.length_functions_decode_le d payload (some probe.codeBytes) probe.functions
  refine ⟨⟨exact_nonneg _ _, exact_le_one hle⟩, ?_, fun divide => mean_congr⟩
  by_cases hread : HeaderRead d payload
  · rw [and_iff_right hread, exact_eq]
    have hfault := fault_of_headerRead probe hread
    have hdialect := dialect_probed d probe payload
    generalize probed d probe payload = s at *
    split_ifs with hempty hzero hnone
    · -- The first probed function is missing.
      obtain ⟨hsome, hnil⟩ := Bool.and_eq_true_iff.mp hempty
      refine iff_of_false zero_ne_one fun hfaultless => ?_
      have hpos : min s.functionCount probe.functions ≠ 0 := fun hzero => by
        rw [hfault hzero] at hsome
        cases hsome
      obtain ⟨f, hf, -⟩ := hfaultless 0 (Nat.pos_of_ne_zero hpos)
      rw [List.isEmpty_iff.mp hnil] at hf
      cases hf
    · refine iff_of_true rfl fun i hi => ?_
      rw [hzero] at hi
      exact absurd hi (Nat.not_lt_zero i)
    · rw [hfault hzero] at hnone
      exact absurd rfl hnone
    · rw [← hdialect]
      exact share_eq_one_iff hle hzero
  · rw [exact_of_not_headerRead hread]
    exact iff_of_false zero_ne_one fun h => hread h.1

end Unscript.Score
