import Unscript.Detection.Basic
import Unscript.Proofs.Number.Order
import Unscript.Proofs.Script.Counting
import Unscript.Proofs.Script.Probing

/-!
# The score of a unit

No dialect scores more than one. The dialect that a unit was written in scores one if every line of
the probed functions starts within the probed part of the code; a line behind it costs the function
and all functions behind that one.

* `Script.Legal`: units whose operations a dialect can have.

Results:
* `Score.foldl_ones`, `Score.foldl_le`: sums of points are not rounded down or up over whole numbers.
* `Score.exists_rounded_eq`, `Score.ofUnit_le_one`: bounds of every score.
* `Score.ofUnit_of_complete`: the score of a unit that is decoded to its end.
* `Score.ofUnit_origin`: when that is one, and that no registered dialect scores more then.
-/

namespace Unscript

open Number (Double)

/-- Whether a dialect can have all operations of a unit. -/
def Script.Legal (d : Dialect) (s : Script) : Prop :=
  ∀ f ∈ s.functions, ∀ i ∈ f.instructions, d.isLegal i.mnemonic

instance (d : Dialect) (s : Script) : Decidable (s.Legal d) :=
  inferInstanceAs (Decidable (∀ f ∈ s.functions, ∀ i ∈ f.instructions, d.isLegal i.mnemonic))

/-! ## Sums of points -/

namespace Score

/-- Adds points to a total, rounded. -/
def plus (total : Double) (points : Rat) : Double :=
  Double.ofRat (total.toRat + (Double.ofRat points).toRat)

theorem toRat_ofRat_one : (Double.ofRat 1).toRat = 1 := by
  exact_mod_cast Double.toRat_ofRat_natCast (n := 1) (by decide)

theorem toRat_ofRat_zero : (Double.ofRat 0).toRat = 0 := by
  exact_mod_cast Double.toRat_ofRat_natCast (n := 0) (by decide)

/-- **Whole points** are added exactly. -/
theorem foldl_ones {n k : Nat} {ps : List Rat} (hps : ∀ p ∈ ps, p = 1)
    (hn : n + ps.length < 2 ^ 53) (hk : k = n + ps.length) :
    ps.foldl plus (Double.ofRat n) = Double.ofRat k := by
  induction ps generalizing n with
  | nil =>
    subst hk
    rfl
  | cons p ps ih =>
    rw [List.length_cons] at hn hk
    have hnext : plus (Double.ofRat n) p = Double.ofRat (n + 1 : Nat) := by
      unfold plus
      rw [hps p List.mem_cons_self, Double.toRat_ofRat_natCast (by omega), toRat_ofRat_one]
      norm_cast
    rw [List.foldl_cons, hnext]
    exact ih (fun q hq => hps q (List.mem_cons_of_mem _ hq)) (by omega) (by omega)

/-- **Sums of points** are not rounded over their count. -/
theorem foldl_le {n : Nat} {ps : List Rat} {total : Double} (hps : ∀ p ∈ ps, p ≤ 1)
    (htotal : total.toRat ≤ n) (hn : n + ps.length < 2 ^ 53) :
    (ps.foldl plus total).toRat ≤ n + ps.length := by
  induction ps generalizing n total with
  | nil => simpa using htotal
  | cons p ps ih =>
    rw [List.length_cons] at hn ⊢
    have hp : (Double.ofRat p).toRat ≤ 1 := by
      rw [← toRat_ofRat_one]
      exact Double.toRat_ofRat_mono (hps p List.mem_cons_self)
    have hnext : (plus total p).toRat ≤ (n + 1 : Nat) := by
      rw [← Double.toRat_ofRat_natCast (show n + 1 < 2 ^ 53 by omega)]
      refine Double.toRat_ofRat_mono ?_
      push_cast
      linarith
    have := ih (fun q hq => hps q (List.mem_cons_of_mem _ hq)) hnext (by omega)
    rw [List.foldl_cons]
    push_cast at this ⊢
    linarith

theorem foldl_nonneg {ps : List Rat} (hps : ∀ p ∈ ps, 0 ≤ p) {total : Double}
    (htotal : 0 ≤ total.toRat) : 0 ≤ (ps.foldl plus total).toRat := by
  induction ps generalizing total with
  | nil => exact htotal
  | cons p ps ih =>
    refine ih (fun q hq => hps q (List.mem_cons_of_mem _ hq)) (Double.toRat_ofRat_nonneg ?_)
    exact add_nonneg htotal (Double.toRat_ofRat_nonneg (hps p List.mem_cons_self))

/-- A share of less than one is not rounded to one. -/
theorem toRat_ofRat_div_lt_one {k n : Nat} (hk : k < n) (hn : n ≤ 2 ^ 32) :
    (Double.ofRat (k / n)).toRat < 1 := by
  have hnq : (0 : ℚ) < n := by exact_mod_cast Nat.zero_lt_of_lt hk
  have hle : (k : ℚ) / n ≤ (2 ^ 32 - 1 : Nat) * (2 : ℚ) ^ (-32 : Int) := by
    have hkq : (k : ℚ) + 1 ≤ n := by exact_mod_cast hk
    have hnq' : (n : ℚ) ≤ 4294967296 := by exact_mod_cast hn
    rw [div_le_iff₀ hnq]
    norm_num
    linarith
  have hround := Double.toRat_ofRat_mono hle
  rw [Double.toRat_ofRat_of_fits (by decide) (by decide) (by decide)] at hround
  refine hround.trans_lt ?_
  norm_num

/-! ## Bounds of scores -/

theorem points_nonneg (d : Dialect) (f : Function) : 0 ≤ points d f := by
  unfold points
  split
  · exact zero_le_one
  · positivity

theorem points_le_one (d : Dialect) (f : Function) : points d f ≤ 1 := by
  unfold points
  split
  · exact le_refl _
  · have hle : ((f.instructions.length - illegalCount d f : Nat) : ℚ) ≤ f.instructions.length := by
      exact_mod_cast Nat.sub_le _ _
    have hpos : (0 : ℚ) < (f.instructions.length + 1 : Nat) := by positivity
    rw [div_le_one hpos]
    push_cast
    have : (0 : ℚ) ≤ f.instructions.length := Nat.cast_nonneg _
    linarith

/-- The rounded score of a unit with functions to probe. -/
theorem rounded_eq (probe : Probe) (s : Script) :
    rounded probe s =
      if s.fault.isSome && s.functions.isEmpty then Double.ofRat 0
      else if min s.functionCount probe.functions = 0 then
        if s.fault.isNone then Double.ofRat 1 else Double.ofRat 0
      else Double.ofRat (((s.functions.map (points s.dialect)).foldl plus (Double.ofRat 0)).toRat /
        (min s.functionCount probe.functions : Nat)) := by
  unfold rounded mean
  split
  · rfl
  · split
    · rename_i hzero
      rw [if_pos hzero]
    · rename_i hne
      rw [if_neg hne, List.foldl_map]
      rfl

/-- **Every score** is a number rounded that is not below zero. -/
theorem exists_rounded_eq (probe : Probe) (s : Script) :
    ∃ q : ℚ, 0 ≤ q ∧ rounded probe s = Double.ofRat q := by
  rw [rounded_eq]
  split_ifs
  · exact ⟨0, le_refl _, rfl⟩
  · exact ⟨1, zero_le_one, rfl⟩
  · exact ⟨0, le_refl _, rfl⟩
  · refine ⟨_, div_nonneg (foldl_nonneg ?_ ?_) (Nat.cast_nonneg _), rfl⟩
    · intro p hp
      obtain ⟨f, -, rfl⟩ := List.mem_map.mp hp
      exact points_nonneg _ f
    · exact Double.toRat_ofRat_nonneg (le_refl _)

variable {d : Dialect} {payload : List UInt8}

/-- **No registered dialect** scores more than one. -/
theorem ofUnit_le_one (hd : d.Registered) (probe : Probe) (payload : List UInt8) :
    (ofUnit d probe payload).toRat ≤ 1 := by
  have hlt := Script.functionCount_decode_lt hd payload ⟨some probe.codeBytes, some probe.functions⟩
  have hlen := Script.length_functions_decode_le d payload (some probe.codeBytes) probe.functions
  unfold ofUnit probed
  generalize Script.decode d payload ⟨some probe.codeBytes, some probe.functions⟩ = s at *
  rw [rounded_eq]
  split_ifs with hempty hzero
  · rw [toRat_ofRat_zero]
    exact zero_le_one
  · rw [toRat_ofRat_one]
  · rw [toRat_ofRat_zero]
    exact zero_le_one
  · have hpoints : ∀ p ∈ s.functions.map (points s.dialect), p ≤ 1 := by
      intro p hp
      obtain ⟨f, -, rfl⟩ := List.mem_map.mp hp
      exact points_le_one _ f
    have hsum := foldl_le (n := 0) hpoints (by rw [toRat_ofRat_zero, Nat.cast_zero])
      (by rw [List.length_map]; omega)
    rw [List.length_map, Nat.cast_zero, zero_add] at hsum
    have hpos : (0 : ℚ) < (min s.functionCount probe.functions : Nat) := by
      exact_mod_cast Nat.pos_of_ne_zero hzero
    rw [← toRat_ofRat_one]
    refine Double.toRat_ofRat_mono ((div_le_one hpos).mpr (hsum.trans ?_))
    exact_mod_cast hlen

/-! ## Units that are decoded to their ends -/

/-- What is probed of a function without errors and with legal operations counts one point. -/
theorem points_upToOffset {f : Function} (hf : f.complete)
    (hlegal : ∀ i ∈ f.instructions, d.isLegal i.mnemonic) (limit : Nat) :
    points d (f.upToOffset limit) = 1 := by
  have hillegal : illegalCount d (f.upToOffset limit) = 0 := by
    unfold illegalCount
    rw [List.countP_eq_zero]
    intro i hi
    simp [hlegal i (List.takeWhile_subset _ hi)]
  unfold points
  rw [if_pos]
  unfold isClean
  rw [hillegal, Bool.and_eq_true]
  exact ⟨hf, rfl⟩

/-- A unit all of whose decoded functions count one point scores their share. -/
theorem rounded_of_ones {probe : Probe} {s : Script} (hcount : s.functionCount < 2 ^ 32)
    (hpoints : ∀ f ∈ s.functions, points s.dialect f = 1)
    (hle : s.functions.length ≤ min s.functionCount probe.functions)
    (hfault : s.fault.isSome → min s.functionCount probe.functions ≠ 0) :
    rounded probe s = Double.ofRat (if min s.functionCount probe.functions = 0 then 1
      else s.functions.length / (min s.functionCount probe.functions : Nat)) := by
  rw [rounded_eq]
  by_cases hzero : min s.functionCount probe.functions = 0
  · have hnone : s.fault.isSome = false := Bool.eq_false_iff.mpr fun hsome => hfault hsome hzero
    have hno : s.fault.isNone = true := by simpa using hnone
    rw [hnone, Bool.false_and, if_neg Bool.false_ne_true, if_pos hzero, if_pos hzero, if_pos hno]
  · rw [if_neg hzero, if_neg hzero]
    split
    · rename_i hempty
      rw [List.isEmpty_iff.mp ((Bool.and_eq_true _ _).mp hempty).2, List.length_nil, Nat.cast_zero,
        zero_div]
    · have hones : ∀ p ∈ s.functions.map (points s.dialect), p = 1 := by
        intro p hp
        obtain ⟨f, hf, rfl⟩ := List.mem_map.mp hp
        exact hpoints f hf
      have hsum := foldl_ones (n := 0) (k := s.functions.length) hones
        (by rw [List.length_map]; omega) (by rw [List.length_map, Nat.zero_add])
      rw [Nat.cast_zero] at hsum
      rw [hsum, Double.toRat_ofRat_natCast (by omega)]

/-- **The score of a unit** in a dialect in which it is decoded to its end: the share of the probed
functions before the first one with a line behind the probed part. -/
theorem ofUnit_of_complete (hd : d.Registered) (h : (Script.decode d payload).complete)
    (hlegal : (Script.decode d payload).Legal d) (probe : Probe) {shown : List Function}
    (hshown : shown = (Script.decode d payload).functions.take probe.functions) :
    ofUnit d probe payload = Double.ofRat (if shown = [] then 1
      else (shown.takeWhile fun f => f.LinedWithin probe.codeBytes).length / shown.length) := by
  obtain ⟨fault, hdecode, hfault⟩ := Script.decode_bounded hd.regular h probe.codeBytes probe.functions
  rw [← hshown] at hdecode hfault
  have hcount := Script.functionCount_decode_lt hd payload {}
  have hmin : min (Script.decode d payload).functionCount probe.functions = shown.length := by
    rw [hshown, List.length_take, Script.length_functions_of_complete h, Nat.min_comm]
  have hbegun : (Function.begun probe.codeBytes shown).length =
      (shown.takeWhile fun f => f.LinedWithin probe.codeBytes).length := List.length_map _
  have hdialect : (Script.decode d payload).dialect = d := by
    unfold Script.decode
    split <;> rfl
  have hpoints : ∀ g ∈ Function.begun probe.codeBytes shown, points d g = 1 := by
    intro g hg
    obtain ⟨f, hf, rfl⟩ := List.mem_map.mp hg
    have hmem : f ∈ (Script.decode d payload).functions := by
      have hf := List.takeWhile_subset _ hf
      rw [hshown] at hf
      exact List.mem_of_mem_take hf
    exact points_upToOffset (List.all_eq_true.mp ((Bool.and_eq_true _ _).mp h).2 f hmem)
      (hlegal f hmem) _
  unfold ofUnit probed
  rw [hdecode, rounded_of_ones] <;> dsimp only
  · rw [hmin, hbegun]
    simp only [List.length_eq_zero_iff]
  · exact hcount
  · rwa [hdialect]
  · rw [hmin, hbegun]
    exact (List.takeWhile_sublist _).length_le
  · intro hsome hzero
    rw [hmin, List.length_eq_zero_iff] at hzero
    rw [hfault.mpr (by simp [hzero])] at hsome
    cases hsome

/-- The full score is that of a unit all of whose probed functions are lined within the probed
part. -/
theorem ofUnit_eq_one_iff (hd : d.Registered) (h : (Script.decode d payload).complete)
    (hlegal : (Script.decode d payload).Legal d) (probe : Probe) :
    ofUnit d probe payload = Double.ofRat 1 ↔
      ∀ f ∈ (Script.decode d payload).functions.take probe.functions,
        f.LinedWithin probe.codeBytes := by
  have hlen : ((Script.decode d payload).functions.take probe.functions).length ≤ 2 ^ 32 := by
    have := Script.functionCount_decode_lt hd payload {}
    rw [List.length_take, Script.length_functions_of_complete h]
    omega
  rw [ofUnit_of_complete hd h hlegal probe rfl]
  generalize (Script.decode d payload).functions.take probe.functions = shown at *
  have hall : (∀ f ∈ shown, f.LinedWithin probe.codeBytes) ↔
      (shown.takeWhile fun f => f.LinedWithin probe.codeBytes) = shown := by
    rw [List.takeWhile_eq_self_iff]
    simp
  rw [hall]
  constructor
  · intro hone
    by_contra hne
    have hlt : (shown.takeWhile fun f => f.LinedWithin probe.codeBytes).length < shown.length :=
      lt_of_le_of_ne (List.takeWhile_sublist _).length_le
        fun heq => hne ((List.takeWhile_sublist _).eq_of_length heq)
    have hbelow := toRat_ofRat_div_lt_one hlt hlen
    rw [if_neg (List.length_pos_iff.mp (Nat.zero_lt_of_lt hlt))] at hone
    rw [hone, toRat_ofRat_one] at hbelow
    exact lt_irrefl _ hbelow
  · intro heq
    rw [heq]
    split
    · rfl
    · rename_i hne
      rw [div_self (by simpa using hne)]

/-- **Probing the dialect of a unit.** A unit that is decoded to its end in a registered dialect, with
legal operations only, scores one there just when every line of the probed functions starts within the
probed part of the code; then no registered dialect scores more. -/
theorem ofUnit_origin (hd : d.Registered) (h : (Script.decode d payload).complete)
    (hlegal : (Script.decode d payload).Legal d) (probe : Probe) :
    (ofUnit d probe payload = Double.ofRat 1 ↔
      ∀ f ∈ (Script.decode d payload).functions.take probe.functions,
        ∀ e ∈ f.lines, e.1 < probe.codeBytes) ∧
    ((∀ f ∈ (Script.decode d payload).functions.take probe.functions,
        ∀ e ∈ f.lines, e.1 < probe.codeBytes) →
      ∀ d' : Dialect, d'.Registered →
        (ofUnit d' probe payload).toRat ≤ (ofUnit d probe payload).toRat) := by
  have hone := ofUnit_eq_one_iff hd h hlegal probe
  refine ⟨hone, fun hlines d' hd' => ?_⟩
  rw [hone.mpr hlines, toRat_ofRat_one]
  exact ofUnit_le_one hd' probe payload

/-- Three instructions of one byte, with a line at the second: a probe of one byte misses it. -/
theorem linedPayload_beyond :
    (Script.decode Registry.firstLined (Script.linedPayload [0, 0, 0])).complete ∧
      (Script.decode Registry.firstLined (Script.linedPayload [0, 0, 0])).Legal
        Registry.firstLined ∧
      ¬ ∀ f ∈ (Script.decode Registry.firstLined (Script.linedPayload [0, 0, 0])).functions.take 8,
        ∀ e ∈ f.lines, e.1 < 1 := by
  obtain ⟨hcomplete, f, hf, -, -, -, -, hlines⟩ := Script.linedPayload_first
  refine ⟨hcomplete, by decide +kernel, fun hall => ?_⟩
  have hmem := List.mem_of_getElem? (List.getElem?_take_of_lt (by decide : 0 < 8) ▸ hf)
  have hlt := hall f hmem (1, 5) (by rw [hlines]; exact List.mem_singleton_self _)
  exact Nat.lt_irrefl 1 hlt

/-- Its dialect does not score one then. -/
theorem ofUnit_origin_lined :
    (Script.decode Registry.firstLined (Script.linedPayload [0, 0, 0])).complete ∧
      (Script.decode Registry.firstLined (Script.linedPayload [0, 0, 0])).Legal
        Registry.firstLined ∧
      ofUnit Registry.firstLined ⟨1, 8⟩ (Script.linedPayload [0, 0, 0]) ≠ Double.ofRat 1 := by
  obtain ⟨hcomplete, hlegal, hbeyond⟩ := linedPayload_beyond
  refine ⟨hcomplete, hlegal, ?_⟩
  exact mt (ofUnit_origin (Dialect.registered_of_mem Registry.firstLined_mem) hcomplete hlegal
    ⟨1, 8⟩).1.mp hbeyond

/-- The dialect of a unit does not always score one. -/
theorem not_forall_ofUnit_eq_one :
    ¬ ∀ d ∈ Registry.standard.dialects, ∀ payload (probe : Probe), 1 ≤ probe.codeBytes →
      1 ≤ probe.functions → (Script.decode d payload).complete →
      (Script.decode d payload).Legal d → ofUnit d probe payload = Double.ofRat 1 := by
  intro hall
  obtain ⟨hcomplete, hlegal, hbeyond⟩ := linedPayload_beyond
  have hone := hall _ Registry.firstLined_mem (Script.linedPayload [0, 0, 0]) ⟨1, 8⟩ (by decide)
    (by decide) hcomplete hlegal
  exact hbeyond ((ofUnit_eq_one_iff (Dialect.registered_of_mem Registry.firstLined_mem) hcomplete
    hlegal ⟨1, 8⟩).mp hone)

end Score

end Unscript
