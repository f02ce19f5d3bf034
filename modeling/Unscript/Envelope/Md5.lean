import Unscript.Bytes.Writer
import Unscript.Bytes.Reader

/-!
# The MD5 digest

The digest of a byte string is sixteen bytes. The string is padded to whole blocks of 64 bytes, the
last of which ends in its length in bits, and the blocks are mixed one after another into a state
of four words.

* `Md5.digest` computes it.
-/

namespace Unscript.Md5

/-- The four words of the state. -/
structure State where
  a : UInt32
  b : UInt32
  c : UInt32
  d : UInt32
  deriving DecidableEq, Repr

/-- The state before the first block. -/
def State.initial : State := ⟨0x67452301, 0xefcdab89, 0x98badcfe, 0x10325476⟩

/-- The constants added in the rounds. -/
def addends : Array UInt32 := #[
  0xd76aa478, 0xe8c7b756, 0x242070db, 0xc1bdceee, 0xf57c0faf, 0x4787c62a,
  0xa8304613, 0xfd469501, 0x698098d8, 0x8b44f7af, 0xffff5bb1, 0x895cd7be,
  0x6b901122, 0xfd987193, 0xa679438e, 0x49b40821, 0xf61e2562, 0xc040b340,
  0x265e5a51, 0xe9b6c7aa, 0xd62f105d, 0x02441453, 0xd8a1e681, 0xe7d3fbc8,
  0x21e1cde6, 0xc33707d6, 0xf4d50d87, 0x455a14ed, 0xa9e3e905, 0xfcefa3f8,
  0x676f02d9, 0x8d2a4c8a, 0xfffa3942, 0x8771f681, 0x6d9d6122, 0xfde5380c,
  0xa4beea44, 0x4bdecfa9, 0xf6bb4b60, 0xbebfbc70, 0x289b7ec6, 0xeaa127fa,
  0xd4ef3085, 0x04881d05, 0xd9d4d039, 0xe6db99e5, 0x1fa27cf8, 0xc4ac5665,
  0xf4292244, 0x432aff97, 0xab9423a7, 0xfc93a039, 0x655b59c3, 0x8f0ccc92,
  0xffeff47d, 0x85845dd1, 0x6fa87e4f, 0xfe2ce6e0, 0xa3014314, 0x4e0811a1,
  0xf7537e82, 0xbd3af235, 0x2ad7d2bb, 0xeb86d391]

/-- The rotations of a group of sixteen rounds, in turn. -/
def rotations : Array (Array UInt32) := #[
  #[7, 12, 17, 22], #[5, 9, 14, 20], #[4, 11, 16, 23], #[6, 10, 15, 21]]

/-- A word rotated to the left. -/
def rotate (w n : UInt32) : UInt32 :=
  (w <<< n) ||| (w >>> (32 - n))

/-- The mixing function of a round, and the word of the block that the round adds. -/
def mix (s : State) (round : Nat) : UInt32 × Nat :=
  match round / 16 with
  | 0 => ((s.b &&& s.c) ||| (~~~s.b &&& s.d), round)
  | 1 => ((s.d &&& s.b) ||| (~~~s.d &&& s.c), (5 * round + 1) % 16)
  | 2 => (s.b ^^^ s.c ^^^ s.d, (3 * round + 5) % 16)
  | _ => (s.c ^^^ (s.b ||| ~~~s.d), (7 * round) % 16)

/-- One round. -/
def round (words : Array UInt32) (s : State) (i : Nat) : State :=
  let (f, word) := mix s i
  let amount := ((rotations[i / 16]?).getD #[])[i % 4]?.getD 0
  let sum := s.a + f + addends[i]?.getD 0 + words[word]?.getD 0
  ⟨s.d, s.b + rotate sum amount, s.b, s.c⟩

/-- Mixes one block into the state. -/
def block (s : State) (words : Array UInt32) : State :=
  let t := (List.range 64).foldl (round words) s
  ⟨s.a + t.a, s.b + t.b, s.c + t.c, s.d + t.d⟩

/-- Cuts a list into pieces of `size`; `fuel` bounds their count. -/
def pieces {α : Type} (size : Nat) : Nat → List α → List (List α)
  | 0, _ => []
  | _, [] => []
  | fuel + 1, xs => xs.take size :: pieces size fuel (xs.drop size)

/-- The padded byte string. -/
def padded (data : List UInt8) : List UInt8 :=
  let zeros := (119 - data.length % 64) % 64
  data ++ 0x80 :: List.replicate zeros 0 ++ Bytes.ofNat 8 (8 * data.length)

/-- The words of a block. -/
def wordsOf (bytes : List UInt8) : Array UInt32 :=
  ((pieces 4 16 bytes).map fun w => UInt32.ofNat (Bytes.toNat w)).toArray

/-- The digest of a byte string. -/
def digest (data : List UInt8) : List UInt8 :=
  let bytes := padded data
  let s := ((pieces 64 bytes.length bytes).map wordsOf).foldl block State.initial
  [s.a, s.b, s.c, s.d].flatMap fun w => Bytes.ofNat 4 w.toNat

end Unscript.Md5
