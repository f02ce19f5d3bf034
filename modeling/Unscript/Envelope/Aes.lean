/-!
# The AES block cipher with keys of 256 bits

A block is sixteen bytes, a four by four matrix column by column. Fourteen rounds substitute every
byte, rotate the rows, mix the columns and add a round key; deciphering undoes them in turn.

* `Aes.cipher` is the cipher of a key, as the two maps `BlockCipher.encrypt` and
  `BlockCipher.decrypt`.
-/

namespace Unscript

/-- A permutation of blocks and its inverse. -/
structure BlockCipher where
  encrypt : List UInt8 → List UInt8
  decrypt : List UInt8 → List UInt8

namespace Aes

/-- The substitution of a byte. -/
def substitutes : Array UInt8 := #[
  0x63, 0x7c, 0x77, 0x7b, 0xf2, 0x6b, 0x6f, 0xc5, 0x30, 0x01, 0x67, 0x2b,
  0xfe, 0xd7, 0xab, 0x76, 0xca, 0x82, 0xc9, 0x7d, 0xfa, 0x59, 0x47, 0xf0,
  0xad, 0xd4, 0xa2, 0xaf, 0x9c, 0xa4, 0x72, 0xc0, 0xb7, 0xfd, 0x93, 0x26,
  0x36, 0x3f, 0xf7, 0xcc, 0x34, 0xa5, 0xe5, 0xf1, 0x71, 0xd8, 0x31, 0x15,
  0x04, 0xc7, 0x23, 0xc3, 0x18, 0x96, 0x05, 0x9a, 0x07, 0x12, 0x80, 0xe2,
  0xeb, 0x27, 0xb2, 0x75, 0x09, 0x83, 0x2c, 0x1a, 0x1b, 0x6e, 0x5a, 0xa0,
  0x52, 0x3b, 0xd6, 0xb3, 0x29, 0xe3, 0x2f, 0x84, 0x53, 0xd1, 0x00, 0xed,
  0x20, 0xfc, 0xb1, 0x5b, 0x6a, 0xcb, 0xbe, 0x39, 0x4a, 0x4c, 0x58, 0xcf,
  0xd0, 0xef, 0xaa, 0xfb, 0x43, 0x4d, 0x33, 0x85, 0x45, 0xf9, 0x02, 0x7f,
  0x50, 0x3c, 0x9f, 0xa8, 0x51, 0xa3, 0x40, 0x8f, 0x92, 0x9d, 0x38, 0xf5,
  0xbc, 0xb6, 0xda, 0x21, 0x10, 0xff, 0xf3, 0xd2, 0xcd, 0x0c, 0x13, 0xec,
  0x5f, 0x97, 0x44, 0x17, 0xc4, 0xa7, 0x7e, 0x3d, 0x64, 0x5d, 0x19, 0x73,
  0x60, 0x81, 0x4f, 0xdc, 0x22, 0x2a, 0x90, 0x88, 0x46, 0xee, 0xb8, 0x14,
  0xde, 0x5e, 0x0b, 0xdb, 0xe0, 0x32, 0x3a, 0x0a, 0x49, 0x06, 0x24, 0x5c,
  0xc2, 0xd3, 0xac, 0x62, 0x91, 0x95, 0xe4, 0x79, 0xe7, 0xc8, 0x37, 0x6d,
  0x8d, 0xd5, 0x4e, 0xa9, 0x6c, 0x56, 0xf4, 0xea, 0x65, 0x7a, 0xae, 0x08,
  0xba, 0x78, 0x25, 0x2e, 0x1c, 0xa6, 0xb4, 0xc6, 0xe8, 0xdd, 0x74, 0x1f,
  0x4b, 0xbd, 0x8b, 0x8a, 0x70, 0x3e, 0xb5, 0x66, 0x48, 0x03, 0xf6, 0x0e,
  0x61, 0x35, 0x57, 0xb9, 0x86, 0xc1, 0x1d, 0x9e, 0xe1, 0xf8, 0x98, 0x11,
  0x69, 0xd9, 0x8e, 0x94, 0x9b, 0x1e, 0x87, 0xe9, 0xce, 0x55, 0x28, 0xdf,
  0x8c, 0xa1, 0x89, 0x0d, 0xbf, 0xe6, 0x42, 0x68, 0x41, 0x99, 0x2d, 0x0f,
  0xb0, 0x54, 0xbb, 0x16]

/-- The inverse substitution. -/
def inverses : Array UInt8 :=
  (Array.range 256).map fun b => UInt8.ofNat (substitutes.idxOf (UInt8.ofNat b))

/-- Substitutes one byte. -/
def substitute (b : UInt8) : UInt8 :=
  substitutes[b.toNat]?.getD 0

/-- Undoes the substitution of one byte. -/
def unsubstitute (b : UInt8) : UInt8 :=
  inverses[b.toNat]?.getD 0

/-- Multiplication by two in the field of 256 elements. -/
def double (b : UInt8) : UInt8 :=
  if b.toNat < 128 then b <<< 1 else (b <<< 1) ^^^ 0x1b

/-- Multiplication of a byte by a small factor. -/
def times (factor : Nat) (b : UInt8) : UInt8 :=
  let b2 := double b
  let b4 := double b2
  let b8 := double b4
  (if factor % 2 = 1 then b else 0) ^^^ (if factor / 2 % 2 = 1 then b2 else 0) ^^^
    (if factor / 4 % 2 = 1 then b4 else 0) ^^^ (if factor / 8 % 2 = 1 then b8 else 0)

/-- The bytes of two lists added in the field. -/
def add (xs ys : List UInt8) : List UInt8 :=
  xs.zipWith (· ^^^ ·) ys

/-- The byte at an index of a block. -/
def byteAt (block : Array UInt8) (i : Nat) : UInt8 :=
  block[i]?.getD 0

/-- Rotates row `r` of a block by `r` columns to the left. -/
def shiftRows (block : List UInt8) : List UInt8 :=
  let b := block.toArray
  (List.range 16).map fun i => byteAt b ((i + 4 * (i % 4)) % 16)

/-- Rotates row `r` of a block by `r` columns to the right. -/
def unshiftRows (block : List UInt8) : List UInt8 :=
  let b := block.toArray
  (List.range 16).map fun i => byteAt b ((i + 12 * (i % 4)) % 16)

/-- Multiplies every column by the circulant matrix with the given first row. -/
def mixWith (row : List Nat) (block : List UInt8) : List UInt8 :=
  let b := block.toArray
  (List.range 16).map fun i =>
    row.zipIdx.foldl (fun sum (factor, k) =>
      sum ^^^ times factor (byteAt b (4 * (i / 4) + (i + k) % 4))) 0

/-- Mixes the columns. -/
def mixColumns : List UInt8 → List UInt8 := mixWith [2, 3, 1, 1]

/-- Undoes the mixing of the columns. -/
def unmixColumns : List UInt8 → List UInt8 := mixWith [14, 11, 13, 9]

/-! ## Round keys -/

/-- The word that starts a round key, from the word before it. -/
def scheduleCore (constant : UInt8) : List UInt8 → List UInt8
  | [a, b, c, d] => [substitute b ^^^ constant, substitute c, substitute d, substitute a]
  | w => w

/-- Extends the key schedule by words up to an index. `words` are the words so far, the last
first. -/
def schedule : Nat → Nat → UInt8 → List (List UInt8) → List (List UInt8)
  | 0, _, _, words => words.reverse
  | fuel + 1, i, constant, words =>
    let last := words.headD []
    let (mixed, next) :=
      if i % 8 = 0 then (scheduleCore constant last, double constant)
      else if i % 8 = 4 then (last.map substitute, constant)
      else (last, constant)
    schedule fuel (i + 1) next (add (words[7]?.getD []) mixed :: words)

/-- The words of a key. -/
def keyWords : Nat → List UInt8 → List (List UInt8)
  | 0, _ => []
  | n + 1, key => key.take 4 :: keyWords n (key.drop 4)

/-- Joins words into round keys of four words. -/
def joinWords : List (List UInt8) → List (List UInt8)
  | a :: b :: c :: d :: rest => (a ++ b ++ c ++ d) :: joinWords rest
  | _ => []

/-- The fifteen round keys of a key of 32 bytes. -/
def roundKeys (key : List UInt8) : List (List UInt8) :=
  joinWords (schedule 52 8 1 (keyWords 8 key).reverse)

/-! ## Rounds -/

/-- The rounds after the first key was added. -/
def rounds : List (List UInt8) → List UInt8 → List UInt8
  | [], block => block
  | [last], block => add (shiftRows (block.map substitute)) last
  | k :: ks, block => rounds ks (add (mixColumns (shiftRows (block.map substitute))) k)

/-- Enciphers a block. -/
def encryptWith (keys : List (List UInt8)) (block : List UInt8) : List UInt8 :=
  match keys with
  | [] => block
  | k :: ks => rounds ks (add block k)

/-- The rounds undone, given the round keys from the last on, up to the first key. -/
def unrounds : List (List UInt8) → List UInt8 → List UInt8
  | [], block => block
  | [first], block => add block first
  | k :: ks, block => unrounds ks ((unshiftRows (unmixColumns (add block k))).map unsubstitute)

/-- Deciphers a block. -/
def decryptWith (keys : List (List UInt8)) (block : List UInt8) : List UInt8 :=
  match keys.reverse with
  | [] => block
  | last :: ks => unrounds ks ((unshiftRows (add block last)).map unsubstitute)

/-- The cipher of a key. -/
def cipher (key : List UInt8) : BlockCipher :=
  let keys := roundKeys key
  ⟨encryptWith keys, decryptWith keys⟩

end Aes

end Unscript
