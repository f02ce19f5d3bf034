import Mathlib.Algebra.Group.Nat.Defs
import Mathlib.Data.List.DropRight
import Unscript.Text.Hex
import Unscript.Text.Numeral

/-!
# Hexadecimal numerals

A numeral in base sixteen that is written with the digits `0` to `f` alone has one value and, at a
given width, one spelling. Numerals that people write may hold more: signs, underscores, the mark
`0x`. What zeros in front of such a numeral do to it is said here too.

* `IsHexDigit`: the sixteen digits.
* `numberOf`: the number that a list of digit values stands for.

Results:
* `readInt?_digits`: digits read back as the number that they stand for.
* `hexPadded_numberOf`: digits filled up with zeros are their number in a column.
* `hexPadded_inj`: in a column two numbers are written differently.
* `readInt?_zeros`: if a text is a numeral, zeros in front of it make no other number of it.
-/

namespace Unscript.Text

/-! ## Digits -/

/-- The digits of a number in base sixteen. -/
def hexDigits : List Char := "0123456789abcdef".toList

/-- Whether the character is one of the sixteen digits. -/
def IsHexDigit (c : Char) : Prop := c ∈ hexDigits

instance : DecidablePred IsHexDigit := fun c => inferInstanceAs (Decidable (c ∈ hexDigits))

theorem digitValue?_digitChar : ∀ d < 16, digitValue? (Nat.digitChar d) = some d := by decide

theorem isHexDigit_digitChar : ∀ d < 16, IsHexDigit (Nat.digitChar d) := by decide

theorem hexDigits_eq_map : hexDigits = (List.range 16).map Nat.digitChar := by decide

theorem IsHexDigit.exists_digitChar {c : Char} (h : IsHexDigit c) :
    ∃ d < 16, c = Nat.digitChar d := by
  unfold IsHexDigit at h
  rw [hexDigits_eq_map] at h
  obtain ⟨d, hd, rfl⟩ := List.mem_map.mp h
  exact ⟨d, List.mem_range.mp hd, rfl⟩

/-- Hexadecimal digits are the characters of some digit values. -/
theorem exists_map_digitChar {cs : List Char} (h : ∀ c ∈ cs, IsHexDigit c) :
    ∃ ds : List Nat, (∀ d ∈ ds, d < 16) ∧ cs = ds.map Nat.digitChar := by
  induction cs with
  | nil => exact ⟨[], by simp, rfl⟩
  | cons c cs ih =>
    obtain ⟨d, hd, rfl⟩ := (h c List.mem_cons_self).exists_digitChar
    obtain ⟨ds, hds, rfl⟩ := ih fun c hc => h c (List.mem_cons_of_mem _ hc)
    exact ⟨d :: ds, List.forall_mem_cons.mpr ⟨hd, hds⟩, rfl⟩

/-! ## The number of a list of digits -/

/-- The number that digit values stand for, behind those of `n`. -/
def numberOf (n : Nat) (ds : List Nat) : Nat :=
  ds.foldl (fun n d => 16 * n + d) n

@[simp] theorem numberOf_cons (n d : Nat) (ds : List Nat) :
    numberOf n (d :: ds) = numberOf (16 * n + d) ds := rfl

@[simp] theorem numberOf_concat (n d : Nat) (ds : List Nat) :
    numberOf n (ds ++ [d]) = 16 * numberOf n ds + d := by
  simp [numberOf]

theorem numberOf_zeros (m : Nat) (ds : List Nat) :
    numberOf 0 (List.replicate m 0 ++ ds) = numberOf 0 ds := by
  induction m with
  | zero => rfl
  | succ m ih => exact ih

theorem numberOf_lt {n : Nat} {ds : List Nat} (hds : ∀ d ∈ ds, d < 16) :
    numberOf n ds < (n + 1) * 16 ^ ds.length := by
  induction ds generalizing n with
  | nil => simp [numberOf]
  | cons d ds ih =>
    obtain ⟨hd, hds⟩ := List.forall_mem_cons.mp hds
    calc
      numberOf n (d :: ds) < (16 * n + d + 1) * 16 ^ ds.length := ih hds
      _ ≤ (n + 1) * 16 * 16 ^ ds.length := Nat.mul_le_mul_right _ (by omega)
      _ = (n + 1) * 16 ^ (d :: ds).length := by rw [List.length_cons, Nat.pow_succ', Nat.mul_assoc]

/-- Lists of as many digits that stand for one number are the same. -/
theorem numberOf_inj {n m : Nat} {ds es : List Nat} (hlen : ds.length = es.length)
    (hds : ∀ d ∈ ds, d < 16) (hes : ∀ e ∈ es, e < 16) (h : numberOf n ds = numberOf m es) :
    n = m ∧ ds = es := by
  induction ds generalizing n m es with
  | nil =>
    obtain rfl := List.length_eq_zero_iff.mp hlen.symm
    exact ⟨h, rfl⟩
  | cons d ds ih =>
    obtain ⟨e, es, rfl⟩ := List.exists_cons_of_length_eq_add_one hlen.symm
    obtain ⟨hd, hds⟩ := List.forall_mem_cons.mp hds
    obtain ⟨he, hes⟩ := List.forall_mem_cons.mp hes
    rw [numberOf_cons, numberOf_cons] at h
    obtain ⟨hnum, rfl⟩ := ih (Nat.succ.inj hlen) hds hes h
    obtain ⟨rfl, rfl⟩ : n = m ∧ d = e := by omega
    exact ⟨rfl, rfl⟩

/-- The digits that a number is written with stand for it. -/
theorem toDigits_eq_map (n : Nat) :
    ∃ ds : List Nat, (∀ d ∈ ds, d < 16) ∧ Nat.toDigits 16 n = ds.map Nat.digitChar ∧
      numberOf 0 ds = n := by
  induction n using Nat.strongRecOn with
  | ind n ih =>
    rw [Nat.toDigits_eq_if (by decide)]
    split
    · rename_i hn
      exact ⟨[n], by simpa using hn, rfl, by simp [numberOf]⟩
    · rename_i hn
      obtain ⟨ds, hds, hdigits, hnum⟩ := ih (n / 16) (by omega)
      refine ⟨ds ++ [n % 16], ?_, by simp [hdigits], ?_⟩
      · intro d hd
        rcases List.mem_append.mp hd with hd | hd
        · exact hds d hd
        · rw [List.mem_singleton.mp hd]
          exact Nat.mod_lt _ (by decide)
      · rw [numberOf_concat, hnum, Nat.div_add_mod]

/-! ## Columns -/

theorem toList_padLeft (width : Nat) (fill : Char) (s : String) :
    (padLeft width fill s).toList = List.replicate (width - s.length) fill ++ s.toList := by
  simp [padLeft]

theorem length_hexPadded {width n : Nat} (hwidth : 0 < width) :
    (hexPadded width n).length = width ↔ n < 16 ^ width := by
  rw [← Nat.length_toDigits_le_iff (b := 16) (by decide) hwidth, hexPadded, hexNat,
    ← String.length_toList, toList_padLeft, List.length_append, List.length_replicate,
    String.length_toList, String.length_ofList]
  omega

theorem le_length_hexPadded (width n : Nat) : width ≤ (hexPadded width n).length := by
  rw [hexPadded, ← String.length_toList, toList_padLeft, List.length_append, List.length_replicate,
    String.length_toList]
  omega

/-- Digits filled up with zeros, as digits that stand for the same number. -/
theorem padLeft_digits (width : Nat) (ds : List Nat) :
    (padLeft width '0' (String.ofList (ds.map Nat.digitChar))).toList =
      (List.replicate (width - ds.length) 0 ++ ds).map Nat.digitChar := by
  rw [toList_padLeft, String.toList_ofList, String.length_ofList, List.length_map, List.map_append,
    List.map_replicate]
  rfl

theorem lt_of_mem_zeros {m d : Nat} {ds : List Nat} (hds : ∀ d ∈ ds, d < 16)
    (hd : d ∈ List.replicate m 0 ++ ds) : d < 16 := by
  rcases List.mem_append.mp hd with hd | hd
  · rw [List.eq_of_mem_replicate hd]
    decide
  · exact hds d hd

/-- A number in a column, as digits that stand for it. -/
theorem hexPadded_eq_map (width n : Nat) :
    ∃ ds : List Nat, (∀ d ∈ ds, d < 16) ∧ (hexPadded width n).toList = ds.map Nat.digitChar ∧
      numberOf 0 ds = n := by
  obtain ⟨ds, hds, hdigits, hnum⟩ := toDigits_eq_map n
  refine ⟨List.replicate (width - ds.length) 0 ++ ds, fun _ => lt_of_mem_zeros hds, ?_,
    (numberOf_zeros _ _).trans hnum⟩
  rw [hexPadded, hexNat, hdigits, padLeft_digits width ds]

/-- Digits filled up with zeros are their number in a column. -/
theorem padLeft_eq_hexPadded {width : Nat} {ds : List Nat} (hds : ∀ d ∈ ds, d < 16)
    (hlen : ds.length ≤ width) (hwidth : 0 < width) :
    padLeft width '0' (String.ofList (ds.map Nat.digitChar)) = hexPadded width (numberOf 0 ds) := by
  obtain ⟨es, hes, hcolumn, hnum⟩ := hexPadded_eq_map width (numberOf 0 ds)
  have hlt : numberOf 0 ds < 16 ^ width :=
    calc
      numberOf 0 ds < (0 + 1) * 16 ^ ds.length := numberOf_lt hds
      _ ≤ 16 ^ width := by
        rw [Nat.zero_add, Nat.one_mul]
        exact Nat.pow_le_pow_right (by decide) hlen
  have hwide : es.length = width := by
    rw [← (length_hexPadded hwidth).mpr hlt, ← String.length_toList, hcolumn, List.length_map]
  have hsame := (numberOf_inj (n := 0) (m := 0)
    (by rw [List.length_append, List.length_replicate, hwide]; omega)
    (fun _ => lt_of_mem_zeros hds) hes ((numberOf_zeros (width - ds.length) ds).trans hnum.symm)).2
  rw [← String.toList_inj, padLeft_digits, hcolumn, hsame]

/-! ## Reading digits -/

theorem digitChar_ne_underscore : ∀ d < 16, Nat.digitChar d ≠ '_' := by decide

/-- Digits are read as the number that they stand for, behind what was read before. -/
theorem readDigits?_digits {ds : List Nat} (hds : ∀ d ∈ ds, d < 16) (n : Nat) :
    readDigits? 16 n false (ds.map Nat.digitChar) = some (numberOf n ds) := by
  induction ds generalizing n with
  | nil => rfl
  | cons d ds ih =>
    obtain ⟨hd, hds⟩ := List.forall_mem_cons.mp hds
    rw [List.map_cons, readDigits?, if_neg (digitChar_ne_underscore d hd),
      digitValue?_digitChar d hd]
    simp only [hd, if_true, ih hds, numberOf_cons]

/-- In a column two numbers are written differently. -/
theorem hexPadded_inj {width n m : Nat} (h : hexPadded width n = hexPadded width m) : n = m := by
  obtain ⟨ds, hds, hcolumn, hn⟩ := hexPadded_eq_map width n
  obtain ⟨es, hes, hcolumn', hm⟩ := hexPadded_eq_map width m
  have hread := readDigits?_digits hds 0
  rw [← hcolumn, h, hcolumn', readDigits?_digits hes 0, hn, hm] at hread
  exact (Option.some.inj hread).symm

/-! ## Reading numerals -/

theorem isLower_iff_toNat {c : Char} : c.isLower = true ↔ 97 ≤ c.toNat ∧ c.toNat ≤ 122 := by
  change (decide ('a'.val ≤ c.val) && decide (c.val ≤ 'z'.val)) = true ↔ _
  simp [UInt32.le_iff_toNat_le]

theorem isUpper_iff_toNat {c : Char} : c.isUpper = true ↔ 65 ≤ c.toNat ∧ c.toNat ≤ 90 := by
  change decide ('A'.val ≤ c.val ∧ c.val ≤ 'Z'.val) = true ↔ _
  simp [UInt32.le_iff_toNat_le]

/-- No run of decimal digits holds a blank. -/
theorem apart_of_mem_decimalZeros : ∀ z ∈ decimalZeros, (z = 0x30 ∨ 0x660 ≤ z) ∧
    (z + 9 < 0x1680 ∨ 0x1680 < z) ∧ (z + 9 < 0x2000 ∨ 0x3000 < z) := by decide

/-- A character that has a value as a digit is no blank. -/
theorem isBlank_of_digitValue? {c : Char} {d : Nat} (h : digitValue? c = some d) :
    isBlank c = false := by
  rw [← Bool.not_eq_true]
  intro hblank
  simp only [isBlank, Bool.or_eq_true, Bool.and_eq_true, decide_eq_true_eq, beq_iff_eq] at hblank
  unfold digitValue? at h
  split_ifs at h with hlower hupper
  · rw [isLower_iff_toNat] at hlower
    omega
  · rw [isUpper_iff_toNat] at hupper
    omega
  · unfold decimalDigit? at h
    split_ifs at h with hascii hdigit
    · have hrange := Char.isDigit_iff_toNat.mp hdigit
      simp only [Char.reduceToNat] at hrange
      omega
    · obtain ⟨z, hz, -⟩ := Option.map_eq_some_iff.mp h
      have hrange := List.find?_some hz
      have hapart := apart_of_mem_decimalZeros z (List.mem_of_find?_eq_some hz)
      simp only [Bool.and_eq_true, decide_eq_true_eq] at hrange
      omega

theorem isNumeralBlank_of_digitValue? {c : Char} {d : Nat} (h : digitValue? c = some d) :
    isNumeralBlank c = false := by
  simp [isNumeralBlank, isBlank_of_digitValue? h]

/-- Zeros at the beginning are read over. -/
theorem readDigits?_zeros (m : Nat) (mustFollow : Bool) (cs : List Char) :
    readDigits? 16 0 mustFollow (List.replicate (m + 1) '0' ++ cs) = readDigits? 16 0 false cs := by
  have hstep (mustFollow : Bool) (cs : List Char) :
      readDigits? 16 0 mustFollow ('0' :: cs) = readDigits? 16 0 false cs := by
    simp [readDigits?, show digitValue? '0' = some 0 by decide]
  induction m generalizing mustFollow with
  | zero => exact hstep mustFollow cs
  | succ m ih =>
    rw [List.replicate_succ, List.cons_append, hstep]
    exact ih false

/-- Where a character stands that is no digit, nothing is read. -/
theorem readDigits?_cons {n : Nat} {mustFollow : Bool} {c : Char} {cs : List Char}
    (hc : c ≠ '_') : readDigits? 16 n mustFollow (c :: cs) =
      (digitValue? c).bind fun d => if d < 16 then readDigits? 16 (16 * n + d) false cs else none := by
  rw [readDigits?, if_neg hc]
  cases digitValue? c <;> rfl

theorem numeralBody_cons {c : Char} (cs : List Char) (hc : isNumeralBlank c = false) :
    numeralBody (String.ofList (c :: cs)) = (c :: cs).rdropWhile isNumeralBlank := by
  simp [numeralBody, List.rdropWhile, hc]

theorem readInt?_of_body {s : String} {c : Char} {cs : List Char} (hbody : numeralBody s = c :: cs)
    (hminus : c ≠ '-') (hplus : c ≠ '+') :
    readInt? 16 s = (readMagnitude? 16 (c :: cs)).map fun n : Nat => (n : Int) := by
  unfold readInt?
  rw [hbody]
  split
  · rename_i heq
    exact absurd (List.cons_eq_cons.mp heq).1 hminus
  · rename_i heq
    exact absurd (List.cons_eq_cons.mp heq).1 hplus
  · cases readMagnitude? 16 (c :: cs) <;> rfl

/-- Behind a first digit an `x` does not belong to a numeral, so there is no mark to drop. -/
theorem dropHexMark_of_readDigits? {c : Char} {cs : List Char} {n v : Nat} {mustFollow : Bool}
    (h : readDigits? 16 n mustFollow (c :: cs) = some v) : dropHexMark (c :: cs) = c :: cs := by
  have hmark (x : Char) (hx : x = 'x' ∨ x = 'X') (n : Nat) (mustFollow : Bool) (rest : List Char) :
      readDigits? 16 n mustFollow (x :: rest) = none := by
    rcases hx with rfl | rfl <;> rfl
  cases cs with
  | nil => rfl
  | cons x rest =>
    simp only [dropHexMark]
    rw [if_neg]
    rintro ⟨-, hx⟩
    by_cases hc : c = '_'
    · rw [readDigits?, if_pos hc] at h
      split at h
      · cases h
      · rw [hmark x hx] at h
        cases h
    · rw [readDigits?_cons hc] at h
      obtain ⟨d, -, h⟩ := Option.bind_eq_some_iff.mp h
      split at h
      · rw [hmark x hx] at h
        cases h
      · cases h

theorem digitValue?_of_decimalDigit? {c : Char} {d : Nat} (h : decimalDigit? c = some d) :
    digitValue? c = some d := by
  have hnone : c.isLower = true ∨ c.isUpper = true → decimalDigit? c = none := by
    intro hletter
    rw [isLower_iff_toNat, isUpper_iff_toNat] at hletter
    have hdigit : ¬ c.isDigit = true := by
      rw [Char.isDigit_iff_toNat]
      simp only [Char.reduceToNat]
      omega
    rw [decimalDigit?, if_pos (by omega), if_neg hdigit]
  unfold digitValue?
  split_ifs with hlower hupper
  · simp [hnone (.inl hlower)] at h
  · simp [hnone (.inr hupper)] at h
  · exact h

/-- A numeral without its sign begins with a digit. -/
theorem exists_digitValue?_of_readMagnitude? {c : Char} {cs : List Char} {v : Nat}
    (h : readMagnitude? 16 (c :: cs) = some v) : ∃ d < 16, digitValue? c = some d := by
  by_cases hmark : dropHexMark (c :: cs) = c :: cs
  · rw [readMagnitude?, if_pos rfl, hmark, readDigits?] at h
    split at h
    · cases h
    · split at h
      · rename_i d hd
        split at h
        · rename_i hlt
          exact ⟨d, hlt, hd⟩
        · cases h
      · cases h
  · unfold dropHexMark at hmark
    split at hmark
    · rename_i heq
      obtain ⟨rfl, rfl⟩ := List.cons_eq_cons.mp heq
      split at hmark
      · rename_i hzero
        exact ⟨0, by decide, digitValue?_of_decimalDigit? hzero.1⟩
      · exact absurd rfl hmark
    · exact absurd rfl hmark

theorem rdropWhile_append {α : Type} {p : α → Bool} {l : List α} (hl : l.rdropWhile p = l)
    (cs : List α) : (l ++ cs).rdropWhile p = l ++ cs.rdropWhile p := by
  induction cs using List.reverseRecOn with
  | nil => simpa using hl
  | append_singleton cs c ih =>
    rw [← List.append_assoc, List.rdropWhile_concat, List.rdropWhile_concat]
    split
    · exact ih
    · exact List.append_assoc ..

/-- The body of a numeral with zeros in front. -/
theorem numeralBody_zeros (m : Nat) (cs : List Char) :
    numeralBody (String.ofList (List.replicate (m + 1) '0' ++ cs)) =
      List.replicate (m + 1) '0' ++ cs.rdropWhile isNumeralBlank := by
  rw [List.replicate_succ, List.cons_append, numeralBody_cons _ (by decide), ← List.cons_append,
    ← List.replicate_succ]
  refine rdropWhile_append (List.rdropWhile_eq_self_iff.mpr fun hne => ?_) cs
  rw [List.getLast_replicate]
  decide

theorem readDigits?_of_follow {c : Char} {cs : List Char} {n : Nat} (hc : c ≠ '_') :
    readDigits? 16 n true (c :: cs) = readDigits? 16 n false (c :: cs) := by
  rw [readDigits?_cons hc, readDigits?_cons hc]

/-- **Digits** read back as the number that they stand for. -/
theorem readInt?_digits {ds : List Nat} (hds : ∀ d ∈ ds, d < 16) (hne : ds ≠ []) :
    readInt? 16 (String.ofList (ds.map Nat.digitChar)) = some (numberOf 0 ds : Int) := by
  obtain ⟨d, ds, rfl⟩ := List.exists_cons_of_ne_nil hne
  have hd := hds d List.mem_cons_self
  have hplain : ∀ d < 16, isNumeralBlank (Nat.digitChar d) = false ∧ Nat.digitChar d ≠ '-' ∧
      Nat.digitChar d ≠ '+' := by decide
  have hbody : numeralBody (String.ofList ((d :: ds).map Nat.digitChar)) =
      (d :: ds).map Nat.digitChar := by
    rw [List.map_cons, numeralBody_cons _ (hplain d hd).1, ← List.map_cons,
      List.rdropWhile_eq_self_iff]
    intro hlast
    obtain ⟨e, he, hlast⟩ := List.mem_map.mp (List.getLast_mem hlast)
    rw [← hlast, (hplain e (hds e he)).1]
    exact Bool.false_ne_true
  have hread := readDigits?_digits hds 0
  rw [readInt?_of_body (hbody.trans List.map_cons) (hplain d hd).2.1 (hplain d hd).2.2,
    readMagnitude?, if_pos rfl, dropHexMark_of_readDigits? hread,
    readDigits?_of_follow (digitChar_ne_underscore d hd), ← List.map_cons, hread]
  rfl

theorem dropHexMark_zeros (m : Nat) {c : Char} (cs : List Char) (hx : c ≠ 'x' ∧ c ≠ 'X') :
    dropHexMark (List.replicate (m + 1) '0' ++ c :: cs) = List.replicate (m + 1) '0' ++ c :: cs := by
  cases m with
  | zero => simp [dropHexMark, hx]
  | succ m => simp [dropHexMark, List.replicate_succ]

/-- **Zeros in front.** If a text is a numeral, and still is one with zeros in front of it, then
they make no other number of it. -/
theorem readInt?_zeros {m : Nat} {cs : List Char} {v w : Int}
    (hv : readInt? 16 (String.ofList cs) = some v)
    (hw : readInt? 16 (String.ofList (List.replicate m '0' ++ cs)) = some w) : v = w := by
  cases m with
  | zero =>
    rw [List.replicate_zero, List.nil_append, hv] at hw
    exact Option.some.inj hw
  | succ m =>
    have hbody := numeralBody_zeros m cs
    rcases hrest : cs.rdropWhile isNumeralBlank with _ | ⟨c, r⟩
    · -- blanks alone are no numeral
      have hnil : numeralBody (String.ofList cs) = [] := by
        simp [numeralBody, List.dropWhile_eq_nil_iff.mpr (List.rdropWhile_eq_nil_iff.mp hrest)]
      unfold readInt? at hv
      rw [hnil] at hv
      cases hv
    · obtain ⟨t, rfl⟩ : ∃ t, cs = c :: t := by
        obtain ⟨t, ht⟩ := List.rdropWhile_prefix isNumeralBlank (l := cs)
        exact ⟨r ++ t, by rw [← ht, hrest, List.cons_append]⟩
      rw [hrest] at hbody
      -- the first character begins both numerals, so it is a digit
      have hfirst (hblank : isNumeralBlank c = false) (hminus : c ≠ '-') (hplus : c ≠ '+') :
          ∃ n : Nat, readMagnitude? 16 (c :: r) = some n ∧ (n : Int) = v := by
        rw [readInt?_of_body ((numeralBody_cons t hblank).trans hrest) hminus hplus] at hv
        exact Option.map_eq_some_iff.mp hv
      have hdigit (x : Char) (hx : isNumeralBlank x = false ∧ x ≠ '-' ∧ x ≠ '+' ∧
          ∀ d < 16, digitValue? x ≠ some d) : c ≠ x := by
        rintro rfl
        obtain ⟨hblank, hminus, hplus, hvalue⟩ := hx
        obtain ⟨n, hn, -⟩ := hfirst hblank hminus hplus
        obtain ⟨d, hd, hval⟩ := exists_digitValue?_of_readMagnitude? hn
        exact hvalue d hd hval
      have hunderscore := hdigit '_' (by decide)
      rw [readInt?_of_body (hbody.trans (by rw [List.replicate_succ, List.cons_append])) (by decide)
        (by decide), ← List.cons_append, ← List.replicate_succ, readMagnitude?, if_pos rfl,
        dropHexMark_zeros m r ⟨hdigit 'x' (by decide), hdigit 'X' (by decide)⟩, readDigits?_zeros] at hw
      obtain ⟨k, hk, rfl⟩ := Option.map_eq_some_iff.mp hw
      obtain ⟨d, hval, -⟩ := Option.bind_eq_some_iff.mp ((readDigits?_cons hunderscore).symm.trans hk)
      obtain ⟨n, hn, rfl⟩ := hfirst (isNumeralBlank_of_digitValue? hval)
        (by rintro rfl; cases hval) (by rintro rfl; cases hval)
      rw [readMagnitude?, if_pos rfl, dropHexMark_of_readDigits? hk,
        readDigits?_of_follow hunderscore, hk] at hn
      rw [Option.some.inj hn]

end Unscript.Text
