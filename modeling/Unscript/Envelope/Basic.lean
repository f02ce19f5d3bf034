import Unscript.Bytes.Reader
import Unscript.Bytes.Writer
import Unscript.Diagnostic
import Unscript.Envelope.Aes
import Unscript.Envelope.Md5
import Unscript.Note
import Unscript.Text.Blank
import Unscript.Text.Quoted

/-!
# The encrypted envelope of a script

An encrypted script holds a magic number, a mode, the digest and the length of the plain data, from
the fourth engine on an initial vector, and the enciphered data, padded to whole blocks. The third
engine enciphers every block by itself; later ones chain them through cipher feedback.

* `Envelope.wrap` encrypts and `Envelope.unwrap` decrypts, both for any block cipher and digest.
* `Envelope.parseKey` reads a key of 256 bits.
-/

namespace Unscript

open Text (quotedBytes)

/-- What is wrong with a key or an envelope. -/
inductive EnvelopeFault where
  | keyText (reason : String)
  | keyBits (bits : Nat)
  | keySize
  | ivSize
  | magic (shown : String)
  | mode (n : Nat)
  | truncated (reason : String) (offset : Nat)
  | digest (offset : Nat)
  | range (e : EncodeError)
  deriving DecidableEq, Repr

namespace EnvelopeFault

/-- The words for a fault. -/
def message : EnvelopeFault → String
  | .keyText reason => s!"script key is not valid hexadecimal: {reason}"
  | .keyBits bits => s!"script key must be 256 bits, got {bits}"
  | .keySize => "script key must be 32 bytes"
  | .ivSize => "IV must be 16 bytes"
  | .magic shown => s!"not an encrypted script (magic {shown})"
  | .mode n => s!"unsupported envelope mode {n}"
  | .truncated reason _ => s!"truncated encrypted script: {reason}"
  | .digest _ => "MD5 mismatch after decryption (wrong key or engine version?)"
  | .range _ => "script is too long for an envelope"

/-- The place of a fault in the envelope. -/
def offset? : EnvelopeFault → Option Nat
  | .magic _ => some 0
  | .mode _ => some 4
  | .truncated _ offset | .digest offset => some offset
  | _ => none

/-- The report of a fault. -/
def diagnostic (f : EnvelopeFault) : Diagnostic where
  kind := "EncryptedScriptError"
  message := f.message
  offset := f.offset?

end EnvelopeFault

namespace Envelope

/-- The bytes at the front of every envelope. -/
def magic : List UInt8 := [0x47, 0x44, 0x45, 0x43]

/-- The count of bytes of a key. -/
def keySize : Nat := 32

/-- The count of bytes of a block. -/
def blockSize : Nat := 16

/-- The only mode of encryption. -/
def mode : Nat := 1

/-- The first engine that chains the blocks. -/
def chainingEngine : Int := 4

/-- What an envelope is sealed with: a cipher for every key, and a digest. -/
structure Algorithms where
  cipher : List UInt8 → BlockCipher
  digest : List UInt8 → List UInt8

/-- The algorithms of the engine. -/
def standard : Algorithms := ⟨Aes.cipher, Md5.digest⟩

/-! ## Keys -/

/-- A letter in lower case, when that is ASCII; the sign for kelvin is the one such letter outside
ASCII. -/
def lowerChar (c : Char) : Char :=
  if c = '\u212a' then 'k' else c.toLower

/-- Reads the digits of a key. -/
def keyDigits (cs : List Char) : Except EnvelopeFault (List UInt8) :=
  if !cs.all (·.toNat < 128) then
    .error (.keyText "string argument should contain only ASCII characters")
  else if cs.length % 2 = 1 then .error (.keyText "Odd-length string")
  else
    match Text.unhex? cs with
    | some key => .ok key
    | none => .error (.keyText "Non-hexadecimal digit found")

/-- Reads a key of 64 digits, with blanks around it and `0x` in front if need be. -/
def parseKey (text : String) : Except EnvelopeFault (List UInt8) := do
  let cs := (Text.strip text.toList).map lowerChar
  let key ← keyDigits (match cs with
    | '0' :: 'x' :: r => r
    | r => r)
  if key.length = keySize then .ok key else .error (.keyBits (8 * key.length))

/-- Reads a key given as bytes: the key itself, or its digits in ASCII. -/
def parseKeyBytes (bytes : List UInt8) : Except EnvelopeFault (List UInt8) :=
  if bytes.length = keySize then .ok bytes else parseKey (Text.replacingAscii bytes)

/-! ## Modes -/

/-- The length in whole blocks. -/
def paddedLength (n : Nat) : Nat :=
  (n + blockSize - 1) / blockSize * blockSize

/-- The data filled up to whole blocks. -/
def pad (data : List UInt8) : List UInt8 :=
  data ++ List.replicate (paddedLength data.length - data.length) 0

/-- The data cut into blocks. -/
def blocks (data : List UInt8) : List (List UInt8) :=
  Md5.pieces blockSize data.length data

/-- Enciphers blocks in a chain: each is added to the cipher of the one before it. -/
def chain (c : BlockCipher) : List UInt8 → List (List UInt8) → List (List UInt8)
  | _, [] => []
  | before, b :: rest =>
    let out := Aes.add b (c.encrypt before)
    out :: chain c out rest

/-- Deciphers blocks of a chain. -/
def unchain (c : BlockCipher) : List UInt8 → List (List UInt8) → List (List UInt8)
  | _, [] => []
  | before, b :: rest => Aes.add b (c.encrypt before) :: unchain c b rest

/-- Enciphers data of whole blocks; with an initial vector in a chain. -/
def encipher (c : BlockCipher) (iv : Option (List UInt8)) (data : List UInt8) : List UInt8 :=
  match iv with
  | some iv => (chain c iv (blocks data)).flatten
  | none => ((blocks data).map c.encrypt).flatten

/-- Deciphers data of whole blocks. -/
def decipher (c : BlockCipher) (iv : Option (List UInt8)) (data : List UInt8) : List UInt8 :=
  match iv with
  | some iv => (unchain c iv (blocks data)).flatten
  | none => ((blocks data).map c.decrypt).flatten

/-! ## Envelopes -/

/-- Whether a byte string starts like an envelope. -/
def isEnvelope (blob : List UInt8) : Bool :=
  blob.take 4 == magic

/-- The initial vector that an engine stores, checked for its size. -/
def vectorFor (engine : Int) (iv : List UInt8) : Except EnvelopeFault (Option (List UInt8)) :=
  if engine < chainingEngine then .ok none
  else if iv.length = blockSize then .ok (some iv)
  else .error .ivSize

/-- Encrypts data. -/
def wrap (alg : Algorithms) (data key : List UInt8) (engine : Int) (iv : List UInt8) :
    Except EnvelopeFault (List UInt8) := do
  if key.length ≠ keySize then .error .keySize
  let modeField ← (Bytes.ofUInt? mode 4).mapError .range
  let length ← (Bytes.ofUInt? data.length 8).mapError .range
  let vector ← vectorFor engine iv
  pure (magic ++ modeField ++ alg.digest data ++ length ++ vector.getD [] ++
    encipher (alg.cipher key) vector (pad data))

/-- The fields of an envelope. -/
structure Fields where
  mode : Nat
  digest : List UInt8
  length : Nat
  vector : Option (List UInt8)
  dataOffset : Nat
  ciphertext : List UInt8

/-- A field of an envelope: what is wrong with it is reported without its place. -/
def field {α : Type} (r : Reading α) (c : Cursor) : Except EnvelopeFault (α × Cursor) :=
  match r.runFrom c with
  | (.ok a, c) => .ok (a, c)
  | (.error e, _) => .error (.truncated e.fault.message e.offset)

/-- Reads the fields of an envelope. -/
def fields (engine : Int) (blob : List UInt8) : Except EnvelopeFault Fields := do
  let (found, c) ← field (Reading.take 4 "envelope magic") (Cursor.ofBytes blob)
  if found ≠ magic then .error (.magic (quotedBytes found))
  let (mode', c) ← field (Reading.uint 4 "envelope mode") c
  if mode' ≠ mode then .error (.mode mode')
  let (digest, c) ← field (Reading.take 16 "envelope digest") c
  let (length, c) ← field (Reading.uint 8 "envelope length") c
  let (vector, c) ←
    if engine < chainingEngine then pure (none, c)
    else do
      let (iv, c) ← field (Reading.take blockSize "envelope IV") c
      pure (some iv, c)
  let (ciphertext, _) ← field (Reading.take (paddedLength length) "encrypted data") c
  pure ⟨mode', digest, length, vector, c.offset, ciphertext⟩

/-- Decrypts an envelope; the result has the length and the digest that the envelope tells. -/
def unwrap (alg : Algorithms) (blob key : List UInt8) (engine : Int) :
    Except EnvelopeFault (List UInt8) := do
  if key.length ≠ keySize then .error .keySize
  let f ← fields engine blob
  let plain := (decipher (alg.cipher key) f.vector f.ciphertext).take f.length
  if alg.digest plain ≠ f.digest then .error (.digest f.dataOffset)
  pure plain

/-- The note about a decrypted script. -/
def openedNote (length : Nat) (engine : Int) : Note :=
  ⟨.debug, .envelope, s!"decrypted {length} byte script (engine {engine})"⟩

end Envelope

end Unscript
