import Unscript.Envelope.Basic
import Unscript.Proofs.Envelope.Aes

/-!
# Data of whole blocks

Data is cut into blocks, and every block is enciphered, by itself or chained to the one before it.
A chain only ever enciphers: what is added to a block on the way there is added once more on the way
back, because the block before it is known by then in its enciphered form.

* `BlockCipher.Lawful`: a cipher that keeps the size of blocks and can be undone.

Results:
* `Envelope.unchain_chain`: a chain is undone.
* `Envelope.decipher_encipher`: so is either way of enciphering data of whole blocks.
* `Envelope.length_encipher`, `Envelope.length_decipher`: both keep the length.
* `Aes.cipher_lawful`: the cipher of every key is lawful.
-/

namespace Unscript

/-! ## Pieces -/

namespace Md5

variable {α : Type} {size fuel : Nat} {xs : List α}

theorem pieces_succ (h : xs ≠ []) :
    pieces size (fuel + 1) xs = xs.take size :: pieces size fuel (xs.drop size) := by
  cases xs with
  | nil => exact absurd rfl h
  | cons x xs => rfl

theorem pieces_nil : pieces size fuel ([] : List α) = [] := by
  cases fuel <;> rfl

/-- The pieces of a list put together again. -/
theorem flatten_pieces (hsize : 0 < size) (hfuel : xs.length ≤ fuel) :
    (pieces size fuel xs).flatten = xs := by
  induction fuel generalizing xs with
  | zero =>
    rw [List.length_eq_zero_iff.mp (Nat.le_zero.mp hfuel)]
    rfl
  | succ fuel ih =>
    by_cases hxs : xs = []
    · rw [hxs, pieces_nil, List.flatten_nil]
    · have hpos := List.length_pos_iff.mpr hxs
      rw [pieces_succ hxs, List.flatten_cons, ih (by rw [List.length_drop]; omega),
        List.take_append_drop]

theorem length_of_mem_pieces {b : List α} (h : size ∣ xs.length) (hb : b ∈ pieces size fuel xs) :
    b.length = size := by
  induction fuel generalizing xs with
  | zero => exact absurd hb List.not_mem_nil
  | succ fuel ih =>
    by_cases hxs : xs = []
    · rw [hxs, pieces_nil] at hb
      exact absurd hb List.not_mem_nil
    · have hle : size ≤ xs.length := Nat.le_of_dvd (List.length_pos_iff.mpr hxs) h
      rw [pieces_succ hxs] at hb
      obtain rfl | hb := List.mem_cons.mp hb
      · rw [List.length_take, Nat.min_eq_left hle]
      · refine ih ?_ hb
        rw [List.length_drop]
        exact Nat.dvd_sub h (Nat.dvd_refl size)

/-- What was put together from pieces of one size is cut into the same pieces. -/
theorem pieces_flatten {bs : List (List α)} (hsize : 0 < size) (h : ∀ b ∈ bs, b.length = size)
    (hfuel : bs.length ≤ fuel) : pieces size fuel bs.flatten = bs := by
  induction bs generalizing fuel with
  | nil => exact pieces_nil
  | cons b bs ih =>
    have hb : b.length = size := h b List.mem_cons_self
    have hne : (b :: bs).flatten ≠ [] := by
      rw [List.flatten_cons, ← List.length_pos_iff, List.length_append, hb]
      exact Nat.add_pos_left hsize _
    cases fuel with
    | zero => exact absurd hfuel (Nat.not_succ_le_zero _)
    | succ fuel =>
      rw [pieces_succ hne, List.flatten_cons, ← hb, List.take_left, List.drop_left, hb,
        ih (fun b hb => h b (List.mem_cons_of_mem _ hb)) (Nat.le_of_succ_le_succ hfuel)]

end Md5

/-! ## Ciphers -/

/-- A cipher of blocks that keeps their size and can be undone. -/
structure BlockCipher.Lawful (c : BlockCipher) : Prop where
  length_encrypt : ∀ block, block.length = Envelope.blockSize →
    (c.encrypt block).length = Envelope.blockSize
  length_decrypt : ∀ block, block.length = Envelope.blockSize →
    (c.decrypt block).length = Envelope.blockSize
  decrypt_encrypt : ∀ block, block.length = Envelope.blockSize →
    c.decrypt (c.encrypt block) = block

namespace Aes

variable (key : List UInt8)

theorem cipher_encrypt : (cipher key).encrypt = encryptWith (roundKeys key) := rfl

theorem cipher_decrypt : (cipher key).decrypt = decryptWith (roundKeys key) := rfl

/-- **The cipher of a key** is lawful. -/
theorem cipher_lawful (h : key.length = Envelope.keySize) : (cipher key).Lawful where
  length_encrypt block _ := by
    rw [cipher_encrypt]
    exact length_encryptWith (usable_roundKeys h)
  length_decrypt block _ := by
    rw [cipher_decrypt]
    exact length_decryptWith (usable_roundKeys h)
  decrypt_encrypt block hblock := by
    rw [cipher_encrypt, cipher_decrypt]
    exact decryptWith_encryptWith (usable_roundKeys h) hblock

end Aes

namespace Envelope

/-! ## Blocks -/

/-- Lists of whole blocks. -/
def Blocks (bs : List (List UInt8)) : Prop :=
  ∀ b ∈ bs, b.length = blockSize

variable {c : BlockCipher} {bs : List (List UInt8)} {data before : List UInt8}
  {iv : Option (List UInt8)}

theorem blocks_blocks (h : blockSize ∣ data.length) : Blocks (blocks data) :=
  fun _ hb => Md5.length_of_mem_pieces h hb

theorem flatten_blocks (data : List UInt8) : (blocks data).flatten = data :=
  Md5.flatten_pieces (by decide) (Nat.le_refl _)

theorem length_flatten (h : Blocks bs) : bs.flatten.length = blockSize * bs.length := by
  induction bs with
  | nil => rfl
  | cons b bs ih =>
    rw [List.flatten_cons, List.length_append, h b List.mem_cons_self,
      ih fun b hb => h b (List.mem_cons_of_mem _ hb), List.length_cons, Nat.mul_succ, Nat.add_comm]

theorem blocks_flatten (h : Blocks bs) : blocks bs.flatten = bs := by
  refine Md5.pieces_flatten (by decide) h ?_
  rw [length_flatten h]
  exact Nat.le_mul_of_pos_left _ (by decide)

theorem blocks_map {f : List UInt8 → List UInt8}
    (hf : ∀ b, b.length = blockSize → (f b).length = blockSize) (h : Blocks bs) :
    Blocks (bs.map f) := by
  intro b hb
  obtain ⟨b', hb', rfl⟩ := List.mem_map.mp hb
  exact hf b' (h b' hb')

/-! ## Chains -/

theorem blocks_chain (hc : c.Lawful) (hbefore : before.length = blockSize) (h : Blocks bs) :
    Blocks (chain c before bs) := by
  induction bs generalizing before with
  | nil => exact h
  | cons b bs ih =>
    have hout : (Aes.add b (c.encrypt before)).length = blockSize :=
      Aes.length_add (h b List.mem_cons_self) (hc.length_encrypt before hbefore)
    intro b' hb'
    obtain rfl | hb' := List.mem_cons.mp hb'
    · exact hout
    · exact ih hout (fun b hb => h b (List.mem_cons_of_mem _ hb)) b' hb'

theorem blocks_unchain (hc : c.Lawful) (hbefore : before.length = blockSize) (h : Blocks bs) :
    Blocks (unchain c before bs) := by
  induction bs generalizing before with
  | nil => exact h
  | cons b bs ih =>
    have hb : b.length = blockSize := h b List.mem_cons_self
    intro b' hb'
    obtain rfl | hb' := List.mem_cons.mp hb'
    · exact Aes.length_add hb (hc.length_encrypt before hbefore)
    · exact ih hb (fun b hb => h b (List.mem_cons_of_mem _ hb)) b' hb'

theorem length_chain : (chain c before bs).length = bs.length := by
  induction bs generalizing before with
  | nil => rfl
  | cons b bs ih => exact congrArg (· + 1) ih

theorem length_unchain : (unchain c before bs).length = bs.length := by
  induction bs generalizing before with
  | nil => rfl
  | cons b bs ih => exact congrArg (· + 1) ih

/-- **A chain** is undone: both ways add the same to a block, the cipher of the block before it. -/
theorem unchain_chain (hc : c.Lawful) (hbefore : before.length = blockSize) (h : Blocks bs) :
    unchain c before (chain c before bs) = bs := by
  induction bs generalizing before with
  | nil => rfl
  | cons b bs ih =>
    have hb : b.length = blockSize := h b List.mem_cons_self
    have hkey : (c.encrypt before).length = blockSize := hc.length_encrypt before hbefore
    rw [chain, unchain, Aes.add_add (hb.trans hkey.symm),
      ih (Aes.length_add hb hkey) fun b hb => h b (List.mem_cons_of_mem _ hb)]

/-! ## Data -/

/-- An initial vector of one block, if there is any. -/
def Vector (iv : Option (List UInt8)) : Prop :=
  ∀ v ∈ iv, v.length = blockSize

/-- **Deciphering** data of whole blocks undoes enciphering it. -/
theorem decipher_encipher (hc : c.Lawful) (hiv : Vector iv) (h : blockSize ∣ data.length) :
    decipher c iv (encipher c iv data) = data := by
  have hblocks := blocks_blocks h
  cases iv with
  | none =>
    have hback : ∀ b ∈ blocks data, (c.decrypt ∘ c.encrypt) b = b :=
      fun b hb => hc.decrypt_encrypt b (hblocks b hb)
    unfold decipher encipher
    dsimp only
    rw [blocks_flatten (blocks_map hc.length_encrypt hblocks), List.map_map,
      List.map_congr_left hback, List.map_id', flatten_blocks]
  | some v =>
    have hv := hiv v rfl
    unfold decipher encipher
    dsimp only
    rw [blocks_flatten (blocks_chain hc hv hblocks), unchain_chain hc hv hblocks, flatten_blocks]

/-- As many blocks have the same length. -/
theorem length_flatten_of_length_eq (h : Blocks bs) (hlength : bs.length = (blocks data).length)
    (hdata : blockSize ∣ data.length) : bs.flatten.length = data.length := by
  rw [length_flatten h, hlength, ← length_flatten (blocks_blocks hdata), flatten_blocks]

theorem length_encipher (hc : c.Lawful) (hiv : Vector iv) (h : blockSize ∣ data.length) :
    (encipher c iv data).length = data.length := by
  have hblocks := blocks_blocks h
  cases iv with
  | none =>
    exact length_flatten_of_length_eq (blocks_map hc.length_encrypt hblocks) (List.length_map _) h
  | some v =>
    exact length_flatten_of_length_eq (blocks_chain hc (hiv v rfl) hblocks) length_chain h

theorem length_decipher (hc : c.Lawful) (hiv : Vector iv) (h : blockSize ∣ data.length) :
    (decipher c iv data).length = data.length := by
  have hblocks := blocks_blocks h
  cases iv with
  | none =>
    exact length_flatten_of_length_eq (blocks_map hc.length_decrypt hblocks) (List.length_map _) h
  | some v =>
    exact length_flatten_of_length_eq (blocks_unchain hc (hiv v rfl) hblocks) length_unchain h

/-! ## Padding -/

theorem le_paddedLength (n : Nat) : n ≤ paddedLength n := by
  unfold paddedLength blockSize
  omega

theorem dvd_paddedLength (n : Nat) : blockSize ∣ paddedLength n :=
  Nat.dvd_mul_left _ _

theorem length_pad (data : List UInt8) : (pad data).length = paddedLength data.length := by
  unfold pad
  rw [List.length_append, List.length_replicate, Nat.add_sub_cancel' (le_paddedLength _)]

theorem take_pad (data : List UInt8) : (pad data).take data.length = data :=
  List.take_left

end Envelope

end Unscript
