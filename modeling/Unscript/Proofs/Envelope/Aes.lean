import Unscript.Envelope.Aes
import Mathlib.Data.List.Induction
import Mathlib.Data.List.Nodup
import Mathlib.Data.List.Perm.Subperm

/-!
# Deciphering a block

Every step of a round is undone by its counterpart: the substitution because no byte stands twice in
its table, the rotation of the rows by counting columns, the mixing of the columns because the two
matrices are inverse over the field of 256 elements, and the addition of a key by adding it again.
So the rounds are undone in turn.

Results:
* `Aes.unsubstitute_substitute`, `Aes.unshiftRows_shiftRows`, `Aes.unmixColumns_mixColumns`: the
  steps of a round.
* `Aes.decryptWith_encryptWith`: all rounds, for any round keys.
* `Aes.length_roundKeys`: a key of 32 bytes has fifteen round keys of one block.
-/

namespace Unscript.Aes

-- Powers are those of `NatPow`, whichever other instances a proof brings into scope.
attribute [local instance (1100)] instPowNat

/-! ## Bytes -/

theorem testBit_foldl_or {xs : List Nat} {n i : Nat} :
    (xs.foldl (fun s x => s ||| 2 ^ x) n).testBit i = true ↔ n.testBit i = true ∨ i ∈ xs := by
  induction xs generalizing n with
  | nil => simp
  | cons x xs ih =>
    rw [List.foldl_cons, ih, Nat.testBit_or, Nat.testBit_two_pow, Bool.or_eq_true,
      decide_eq_true_eq, List.mem_cons, or_assoc, eq_comm (a := x)]

theorem length_substitutes : substitutes.toList.length = 256 := by
  decide +kernel

/-- No byte stands twice in the table, since all 256 stand in it. -/
theorem nodup_substitutes : substitutes.toList.Nodup := by
  have hall : (substitutes.toList.map UInt8.toNat).foldl (fun s x => s ||| 2 ^ x) 0 =
      2 ^ 256 - 1 := by
    decide +kernel
  have hsubset : List.range 256 ⊆ substitutes.toList.map UInt8.toNat := by
    intro i hi
    have hbit : (2 ^ 256 - 1).testBit i = true := by
      rw [Nat.testBit_two_pow_sub_one]
      exact decide_eq_true (List.mem_range.mp hi)
    rw [← hall, testBit_foldl_or, Nat.zero_testBit] at hbit
    exact hbit.resolve_left Bool.false_ne_true
  have hlength : (substitutes.toList.map UInt8.toNat).length = (List.range 256).length := by
    rw [List.length_map, length_substitutes, List.length_range]
  have hperm := (List.nodup_range.subperm hsubset).perm_of_length_le (Nat.le_of_eq hlength)
  exact List.Nodup.of_map _ (hperm.nodup_iff.mp List.nodup_range)

/-- **The substitution** is undone. -/
theorem unsubstitute_substitute (b : UInt8) : unsubstitute (substitute b) = b := by
  have hb : b.toNat < substitutes.toList.length := by
    rw [length_substitutes]
    exact b.toNat_lt
  have hsubstitute : substitute b = substitutes.toList[b.toNat] := by
    unfold substitute
    rw [← Array.getElem?_toList, List.getElem?_eq_getElem hb, Option.getD_some]
  have hindex (c : UInt8) : unsubstitute c = UInt8.ofNat (substitutes.toList.idxOf c) := by
    have hc : c.toNat < (Array.range 256).size := by
      rw [Array.size_range]
      exact c.toNat_lt
    unfold unsubstitute inverses
    rw [Array.getElem?_map, Array.getElem?_eq_getElem hc, Array.getElem_range, Option.map_some,
      Option.getD_some, UInt8.ofNat_toNat]
    exact congrArg UInt8.ofNat List.findIdx_toArray
  rw [hindex, hsubstitute, nodup_substitutes.idxOf_getElem _ hb, UInt8.ofNat_toNat]

/-- What doubling adds when the highest bit is lost. -/
def carry (b : UInt8) : UInt8 :=
  if b.toNat < 128 then 0 else 0x1b

theorem carry_xor (a b : UInt8) : carry (a ^^^ b) = carry a ^^^ carry b := by
  have htop (c : UInt8) : carry c = if c.toNat.testBit 7 then 0x1b else 0 := by
    have hlt := c.toNat_lt
    have hiff : c.toNat.testBit 7 = true ↔ ¬ c.toNat < 128 := by
      rw [Nat.testBit_eq_decide_div_mod_eq, decide_eq_true_eq]
      omega
    unfold carry
    by_cases h : c.toNat < 128
    · rw [if_pos h, if_neg fun hbit => hiff.mp hbit h]
    · rw [if_neg h, if_pos (hiff.mpr h)]
  rw [htop, htop, htop, UInt8.toNat_xor, Nat.testBit_xor]
  cases a.toNat.testBit 7 <;> cases b.toNat.testBit 7 <;> rfl

theorem double_eq (b : UInt8) : double b = b <<< 1 ^^^ carry b := by
  unfold double carry
  split
  · rw [UInt8.xor_zero]
  · rfl

/-- Doubling is linear. -/
theorem double_xor (a b : UInt8) : double (a ^^^ b) = double a ^^^ double b := by
  rw [double_eq, double_eq, double_eq, carry_xor, UInt8.shiftLeft_xor]
  ac_rfl

theorem ite_xor (p : Prop) [Decidable p] (a b : UInt8) :
    (if p then a ^^^ b else 0) = (if p then a else 0) ^^^ (if p then b else 0) := by
  split
  · rfl
  · rfl

/-- Multiplication by a factor is linear. -/
theorem times_xor (factor : Nat) (a b : UInt8) :
    times factor (a ^^^ b) = times factor a ^^^ times factor b := by
  unfold times
  simp only [double_xor, ite_xor]
  ac_rfl

/-- The two rows of factors are inverse: in the product of their matrices every byte comes back to
its own place and cancels out in the three others. -/
theorem times_times (b : UInt8) :
    times 14 (times 2 b) ^^^ times 11 b ^^^ times 13 b ^^^ times 9 (times 3 b) = b ∧
    times 14 (times 3 b) ^^^ times 11 (times 2 b) ^^^ times 13 b ^^^ times 9 b = 0 ∧
    times 14 b ^^^ times 11 (times 3 b) ^^^ times 13 (times 2 b) ^^^ times 9 b = 0 ∧
    times 14 b ^^^ times 11 b ^^^ times 13 (times 3 b) ^^^ times 9 (times 2 b) = 0 := by
  have hcomm (x y z : UInt8) : x ^^^ (y ^^^ z) = y ^^^ (x ^^^ z) := by
    rw [← UInt8.xor_assoc, UInt8.xor_comm x y, UInt8.xor_assoc]
  have hcancel (x y : UInt8) : x ^^^ (x ^^^ y) = y := by
    rw [← UInt8.xor_assoc, UInt8.xor_self, UInt8.zero_xor]
  simp only [times, Nat.reduceMod, Nat.reduceDiv, Nat.zero_ne_one, Nat.zero_mod, reduceIte,
    double_xor, UInt8.xor_zero, UInt8.zero_xor, UInt8.xor_assoc]
  -- All of these are sums of the byte and its doubles, in which equal terms cancel.
  generalize double b = b2
  generalize double b2 = b4
  generalize double b4 = b8
  generalize double b8 = b16
  simp only [hcomm, hcancel, UInt8.xor_comm, UInt8.xor_self, UInt8.xor_zero, and_self]

/-! ## Blocks -/

variable {block k : List UInt8}

theorem byteAt_table {f : Nat → UInt8} {i : Nat} (hi : i < 16) :
    byteAt ((List.range 16).map f).toArray i = f i := by
  unfold byteAt
  rw [List.getElem?_toArray, List.getElem?_map, List.getElem?_range hi, Option.map_some,
    Option.getD_some]

/-- A block is the table of its bytes. -/
theorem table_byteAt (h : block.length = 16) :
    (List.range 16).map (byteAt block.toArray) = block := by
  refine List.ext_getElem (by rw [List.length_map, List.length_range, h]) fun i hi hi' => ?_
  rw [List.getElem_map, List.getElem_range]
  unfold byteAt
  rw [List.getElem?_toArray, List.getElem?_eq_getElem hi', Option.getD_some]

/-- **The rotation of the rows** is undone. -/
theorem unshiftRows_shiftRows (h : block.length = 16) : unshiftRows (shiftRows block) = block := by
  have hback : ∀ i < 16,
      ((i + 12 * (i % 4)) % 16 + 4 * ((i + 12 * (i % 4)) % 16 % 4)) % 16 = i := by
    decide
  conv_rhs => rw [← table_byteAt h]
  unfold unshiftRows shiftRows
  refine List.map_congr_left fun i hi => ?_
  have hi := List.mem_range.mp hi
  rw [byteAt_table (Nat.mod_lt _ (by decide)), hback i hi]

/-- The byte of a block in the column of `i`, by `j` rows further round than `i`. -/
def columnByte (block : List UInt8) (i j : Nat) : UInt8 :=
  byteAt block.toArray (4 * (i / 4) + (i + j) % 4)

theorem mixWith_four (a b c d : Nat) (block : List UInt8) :
    mixWith [a, b, c, d] block = (List.range 16).map fun i =>
      times a (columnByte block i 0) ^^^ times b (columnByte block i 1) ^^^
        times c (columnByte block i 2) ^^^ times d (columnByte block i 3) := by
  refine List.map_congr_left fun i _ => ?_
  simp only [List.zipIdx_cons, List.zipIdx_nil, List.foldl_cons, List.foldl_nil, UInt8.zero_xor]
  rfl

/-- The bytes of a column that was mixed are mixed from the same column. -/
theorem columnByte_table {f : Nat → UInt8} {i j : Nat} (hi : i < 16) :
    columnByte ((List.range 16).map f) i j = f (4 * (i / 4) + (i + j) % 4) :=
  byteAt_table (by omega)

theorem columnByte_columnByte {i j l : Nat} :
    columnByte block (4 * (i / 4) + (i + j) % 4) l = columnByte block i ((j + l) % 4) := by
  unfold columnByte
  congr 1
  omega

/-- **The mixing of the columns** is undone. -/
theorem unmixColumns_mixColumns (h : block.length = 16) :
    unmixColumns (mixColumns block) = block := by
  conv_rhs => rw [← table_byteAt h]
  unfold unmixColumns mixColumns
  rw [mixWith_four, mixWith_four]
  refine List.map_congr_left fun i hi => ?_
  have hi := List.mem_range.mp hi
  have hself : byteAt block.toArray i = columnByte block i 0 := by
    unfold columnByte
    congr 1
    omega
  simp only [columnByte_table hi, columnByte_columnByte, Nat.reduceAdd, Nat.reduceMod]
  rw [hself]
  generalize columnByte block i 0 = x
  generalize columnByte block i 1 = y
  generalize columnByte block i 2 = z
  generalize columnByte block i 3 = w
  have hone (b : UInt8) : times 1 b = b := by
    simp [times]
  obtain ⟨hx, -⟩ := times_times x
  obtain ⟨-, hy, -⟩ := times_times y
  obtain ⟨-, -, hz, -⟩ := times_times z
  obtain ⟨-, -, -, hw⟩ := times_times w
  simp only [times_xor, hone]
  calc _ = (times 14 (times 2 x) ^^^ times 11 x ^^^ times 13 x ^^^ times 9 (times 3 x)) ^^^
        (times 14 (times 3 y) ^^^ times 11 (times 2 y) ^^^ times 13 y ^^^ times 9 y) ^^^
        (times 14 z ^^^ times 11 (times 3 z) ^^^ times 13 (times 2 z) ^^^ times 9 z) ^^^
        (times 14 w ^^^ times 11 w ^^^ times 13 (times 3 w) ^^^ times 9 (times 2 w)) := by
          ac_rfl
    _ = x := by
      rw [hx, hy, hz, hw, UInt8.xor_zero, UInt8.xor_zero, UInt8.xor_zero]

/-- A key is taken off by adding it again. -/
theorem add_add (h : block.length = k.length) : add (add block k) k = block := by
  unfold add
  induction block generalizing k with
  | nil => simp
  | cons b block ih =>
    cases k with
    | nil => simp at h
    | cons a k =>
      rw [List.zipWith_cons_cons, List.zipWith_cons_cons, ih (Nat.succ.inj h),
        UInt8.xor_assoc, UInt8.xor_self, UInt8.xor_zero]

/-! ## Rounds -/

theorem length_shiftRows : (shiftRows block).length = 16 := by
  unfold shiftRows
  rw [List.length_map, List.length_range]

theorem length_unshiftRows : (unshiftRows block).length = 16 := by
  unfold unshiftRows
  rw [List.length_map, List.length_range]

theorem length_mixColumns : (mixColumns block).length = 16 := by
  unfold mixColumns mixWith
  rw [List.length_map, List.length_range]

theorem length_add (h : block.length = 16) (hk : k.length = 16) : (add block k).length = 16 := by
  unfold add
  rw [List.length_zipWith, h, hk, Nat.min_self]

theorem map_unsubstitute_substitute : (block.map substitute).map unsubstitute = block := by
  rw [List.map_map]
  exact List.map_id'' unsubstitute_substitute block

/-- A round before the last. -/
def round (block k : List UInt8) : List UInt8 :=
  add (mixColumns (shiftRows (block.map substitute))) k

theorem length_round (hk : k.length = 16) : (round block k).length = 16 :=
  length_add length_mixColumns hk

theorem unround_round (h : block.length = 16) (hk : k.length = 16) :
    (unshiftRows (unmixColumns (add (round block k) k))).map unsubstitute = block := by
  have hsub : (block.map substitute).length = 16 := by rw [List.length_map, h]
  unfold round
  rw [add_add (by rw [length_mixColumns, hk]), unmixColumns_mixColumns length_shiftRows,
    unshiftRows_shiftRows hsub, map_unsubstitute_substitute]

variable {keys ks : List (List UInt8)} {first last : List UInt8}

theorem length_foldl_round (h : block.length = 16) (hks : ∀ k ∈ ks, k.length = 16) :
    (ks.foldl round block).length = 16 := by
  induction ks generalizing block with
  | nil => exact h
  | cons k ks ih =>
    exact ih (length_round (hks k (List.mem_cons_self ..)))
      fun k' hk' => hks k' (List.mem_cons_of_mem _ hk')

theorem rounds_concat :
    rounds (ks ++ [last]) block =
      add (shiftRows ((ks.foldl round block).map substitute)) last := by
  induction ks generalizing block with
  | nil => rfl
  | cons k ks ih =>
    rw [List.foldl_cons, ← ih, List.cons_append, rounds]
    · rfl
    · exact List.append_ne_nil_of_right_ne_nil _ (List.cons_ne_nil _ _)

/-- The rounds before the last are undone in turn, from the last of them on. -/
theorem unrounds_reverse (h : block.length = 16) (hks : ∀ k ∈ ks, k.length = 16) :
    unrounds (ks.reverse ++ [first]) (ks.foldl round block) = add block first := by
  induction ks using List.reverseRecOn with
  | nil => rfl
  | append_singleton ks k ih =>
    have hk : k.length = 16 := hks k (List.mem_append_right _ (List.mem_singleton_self k))
    have hks : ∀ k ∈ ks, k.length = 16 := fun k' hk' => hks k' (List.mem_append_left _ hk')
    rw [List.reverse_append, List.reverse_singleton, List.singleton_append, List.cons_append,
      List.foldl_append, List.foldl_cons, List.foldl_nil, unrounds,
      unround_round (length_foldl_round h hks) hk]
    · exact ih hks
    · exact List.append_ne_nil_of_right_ne_nil _ (List.cons_ne_nil _ _)

/-- Keys for enciphering a block: at least a first and a last one, each of a block's size. -/
structure Usable (keys : List (List UInt8)) : Prop where
  two : 2 ≤ keys.length
  block : ∀ k ∈ keys, k.length = 16

/-- Usable keys are a first one, those of the rounds between, and a last one. -/
theorem Usable.split (h : Usable keys) :
    ∃ first ks last, keys = first :: (ks ++ [last]) ∧ first.length = 16 ∧
      (∀ k ∈ ks, k.length = 16) ∧ last.length = 16 := by
  obtain ⟨htwo, hblock⟩ := h
  match keys, htwo, hblock with
  | first :: k :: rest, _, hblock =>
    obtain ⟨ks, last, hsplit⟩ := (List.eq_nil_or_concat' (k :: rest)).resolve_left
      (List.cons_ne_nil _ _)
    rw [hsplit] at hblock ⊢
    refine ⟨first, ks, last, rfl, hblock _ (List.mem_cons_self ..), fun k hk => ?_, ?_⟩
    · exact hblock k (List.mem_cons_of_mem _ (List.mem_append_left _ hk))
    · exact hblock last
        (List.mem_cons_of_mem _ (List.mem_append_right _ (List.mem_singleton_self last)))

theorem encryptWith_split :
    encryptWith (first :: (ks ++ [last])) block =
      add (shiftRows ((ks.foldl round (add block first)).map substitute)) last :=
  rounds_concat

theorem length_encryptWith (hkeys : Usable keys) : (encryptWith keys block).length = 16 := by
  obtain ⟨first, ks, last, rfl, -, -, hlast⟩ := hkeys.split
  rw [encryptWith_split]
  exact length_add length_shiftRows hlast

theorem decryptWith_split :
    decryptWith (first :: (ks ++ [last])) block =
      unrounds (ks.reverse ++ [first]) ((unshiftRows (add block last)).map unsubstitute) := by
  unfold decryptWith
  rw [List.reverse_cons, List.reverse_append, List.reverse_singleton, List.singleton_append,
    List.cons_append]

theorem length_unrounds (h : block.length = 16) (hfirst : first.length = 16) :
    (unrounds (ks ++ [first]) block).length = 16 := by
  induction ks generalizing block with
  | nil => exact length_add h hfirst
  | cons k ks ih =>
    rw [List.cons_append, unrounds]
    · exact ih (by rw [List.length_map, length_unshiftRows])
    · exact List.append_ne_nil_of_right_ne_nil _ (List.cons_ne_nil _ _)

theorem length_decryptWith (hkeys : Usable keys) : (decryptWith keys block).length = 16 := by
  obtain ⟨first, ks, last, rfl, hfirst, -, -⟩ := hkeys.split
  rw [decryptWith_split]
  exact length_unrounds (by rw [List.length_map, length_unshiftRows]) hfirst

/-- **Deciphering** undoes enciphering. -/
theorem decryptWith_encryptWith (hkeys : Usable keys) (h : block.length = 16) :
    decryptWith keys (encryptWith keys block) = block := by
  obtain ⟨first, ks, last, rfl, hfirst, hks, hlast⟩ := hkeys.split
  have hadd : (add block first).length = 16 := length_add h hfirst
  have hfold : ((ks.foldl round (add block first)).map substitute).length = 16 := by
    rw [List.length_map, length_foldl_round hadd hks]
  rw [encryptWith_split, decryptWith_split, add_add (by rw [length_shiftRows, hlast]),
    unshiftRows_shiftRows hfold, map_unsubstitute_substitute, unrounds_reverse hadd hks,
    add_add (by rw [h, hfirst])]

/-! ## Round keys -/

/-- Words of four bytes, as a schedule holds them. -/
def Words (words : List (List UInt8)) : Prop :=
  ∀ w ∈ words, w.length = 4

variable {words : List (List UInt8)} {key : List UInt8}

theorem length_scheduleCore (constant : UInt8) {w : List UInt8} :
    (scheduleCore constant w).length = w.length := by
  unfold scheduleCore
  split
  · simp only [List.length_cons]
  · rfl

theorem words_cons {w : List UInt8} (hw : w.length = 4) (h : Words words) : Words (w :: words) :=
  List.forall_mem_cons.mpr ⟨hw, h⟩

/-- Every word of a schedule is made from two that are there, so it has their length. -/
theorem words_schedule (fuel i : Nat) (constant : UInt8) (h : Words words)
    (hsize : 8 ≤ words.length) :
    Words (schedule fuel i constant words) ∧
      (schedule fuel i constant words).length = words.length + fuel := by
  induction fuel generalizing i constant words with
  | zero => exact ⟨fun w hw => h w (List.mem_reverse.mp hw), List.length_reverse⟩
  | succ fuel ih =>
    have hlast : (words.headD []).length = 4 := by
      match words, hsize with
      | w :: rest, _ => exact h w List.mem_cons_self
    have hback : (words[7]?.getD []).length = 4 := by
      rw [List.getElem?_eq_getElem (by omega), Option.getD_some]
      exact h _ (List.getElem_mem _)
    rw [schedule]
    split
    rename_i mixed next hmixed
    have hmixed : mixed.length = 4 := by
      split_ifs at hmixed
      · obtain ⟨rfl, -⟩ := Prod.mk.inj hmixed
        rw [length_scheduleCore, hlast]
      · obtain ⟨rfl, -⟩ := Prod.mk.inj hmixed
        rw [List.length_map, hlast]
      · obtain ⟨rfl, -⟩ := Prod.mk.inj hmixed
        exact hlast
    have hnew : (add (words[7]?.getD []) mixed).length = 4 := by
      unfold add
      rw [List.length_zipWith, hback, hmixed, Nat.min_self]
    obtain ⟨hall, hlength⟩ := ih (i + 1) next (words_cons hnew h) (Nat.le_succ_of_le hsize)
    exact ⟨hall, by rw [hlength, List.length_cons]; omega⟩

theorem words_keyWords {n : Nat} (h : key.length = 4 * n) :
    Words (keyWords n key) ∧ (keyWords n key).length = n := by
  induction n generalizing key with
  | zero => exact ⟨fun _ hw => (List.not_mem_nil hw).elim, rfl⟩
  | succ n ih =>
    have htail : (key.drop 4).length = 4 * n := by
      rw [List.length_drop, h]
      omega
    obtain ⟨hall, hlength⟩ := ih htail
    refine ⟨words_cons ?_ hall, congrArg (· + 1) hlength⟩
    rw [List.length_take, h]
    omega

theorem joinWords_block {n : Nat} (h : Words words) (hsize : words.length = 4 * n) :
    (∀ k ∈ joinWords words, k.length = 16) ∧ (joinWords words).length = n := by
  induction n generalizing words with
  | zero =>
    rw [List.length_eq_zero_iff.mp hsize]
    exact ⟨fun _ hk => (List.not_mem_nil hk).elim, rfl⟩
  | succ n ih =>
    match words, hsize with
    | a :: b :: c :: d :: rest, hsize =>
      simp only [Words, List.forall_mem_cons] at h
      obtain ⟨ha, hb, hc, hd, hrest⟩ := h
      obtain ⟨hall, hlength⟩ := ih hrest (by simpa [Nat.mul_succ] using hsize)
      refine ⟨fun k hk => ?_, congrArg (· + 1) hlength⟩
      obtain rfl | hk := List.mem_cons.mp hk
      · simp only [List.length_append, ha, hb, hc, hd]
      · exact hall k hk

/-- A key has fifteen round keys, each of a block's size. -/
theorem length_roundKeys (h : key.length = 32) :
    (roundKeys key).length = 15 ∧ ∀ k ∈ roundKeys key, k.length = 16 := by
  obtain ⟨hwords, hcount⟩ := words_keyWords (n := 8) h
  have hsize : (keyWords 8 key).reverse.length = 8 := List.length_reverse.trans hcount
  obtain ⟨hall, hlength⟩ := words_schedule 52 8 1
    (fun w hw => hwords w (List.mem_reverse.mp hw)) (Nat.le_of_eq hsize.symm)
  rw [hsize] at hlength
  exact (joinWords_block (n := 15) hall hlength).symm

theorem usable_roundKeys (h : key.length = 32) : Usable (roundKeys key) := by
  obtain ⟨hlength, hblock⟩ := length_roundKeys h
  exact ⟨by rw [hlength]; decide, hblock⟩

end Unscript.Aes
