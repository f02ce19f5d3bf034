import Unscript.Proofs.Bytes.Slices
import Unscript.Proofs.Envelope.Chaining
import Unscript.Proofs.Outcome

/-!
# Envelopes sealed and opened

An envelope is a header of four fields, from the fourth engine on an initial vector, and the
enciphered data. What was sealed is opened with the same key and engine. Any other byte string is
either refused for its first part that is cut off or wrong, or it opens to data that have the length
and the digest that it stores.

* `Envelope.Part`: the parts of an envelope, in their order.
* `Envelope.refusal?`: what is wrong with the first of them that cannot be used.
* `Envelope.Algorithms.Lawful`: what opening needs of a cipher and a digest.
* `Envelope.Refused`: the three ways for an envelope not to open.

Results:
* `Envelope.fields_eq`: the fields of an envelope are its slices.
* `Envelope.unwrap_eq_ok`, `Envelope.unwrap_eq_error`: when an envelope opens, and why not.
* `Envelope.unwrap_wrap`: sealed data are opened.
* `Envelope.standard_lawful`: the algorithms of the engine are lawful.
-/

namespace Unscript.Envelope

open Bytes (slice)
open Text (quotedBytes)

-- Powers are those of `NatPow`, whichever other instances a proof brings into scope.
attribute [local instance (1100)] instPowNat

variable {alg : Algorithms} {blob data key iv plain : List UInt8} {engine : Int}

/-! ## The parts of an envelope -/

/-- The length of the data that an envelope stores. -/
def storedLength (blob : List UInt8) : Nat :=
  Bytes.toNat (slice blob 24 8)

/-- The digest of the data that an envelope stores. -/
def storedDigest (blob : List UInt8) : List UInt8 :=
  slice blob 8 16

/-- The initial vector that an envelope stores for an engine. -/
def storedVector (engine : Int) (blob : List UInt8) : Option (List UInt8) :=
  if engine < chainingEngine then none else some (slice blob 32 blockSize)

/-- Where the enciphered data start. -/
def dataStart (engine : Int) : Nat :=
  if engine < chainingEngine then 32 else 32 + blockSize

/-- The parts of an envelope. -/
inductive Part where
  | magic
  | mode
  | digest
  | length
  | vector
  | data
  deriving DecidableEq, Repr

namespace Part

/-- The parts in their order. -/
def all : List Part :=
  [.magic, .mode, .digest, .length, .vector, .data]

/-- Where a part starts. -/
def start (engine : Int) : Part → Nat
  | .magic => 0
  | .mode => 4
  | .digest => 8
  | .length => 24
  | .vector => 32
  | .data => dataStart engine

/-- Where a part ends. An engine without chains stores no initial vector, and the data fill whole
blocks. -/
def stop (engine : Int) (blob : List UInt8) : Part → Nat
  | .magic => 4
  | .mode => 8
  | .digest => 24
  | .length => 32
  | .vector => dataStart engine
  | .data => dataStart engine + paddedLength (storedLength blob)

/-- The words for a part. -/
def text : Part → String
  | .magic => "envelope magic"
  | .mode => "envelope mode"
  | .digest => "envelope digest"
  | .length => "envelope length"
  | .vector => "envelope IV"
  | .data => "encrypted data"

/-- What is wrong with the value of a part. -/
def wrong? (blob : List UInt8) : Part → Option EnvelopeFault
  | .magic =>
    if slice blob 0 4 = Envelope.magic then none else some (.magic (quotedBytes (slice blob 0 4)))
  | .mode =>
    if Bytes.toNat (slice blob 4 4) = Envelope.mode then none
    else some (.mode (Bytes.toNat (slice blob 4 4)))
  | _ => none

/-- What is wrong with a part that is cut off. -/
def cut (engine : Int) (p : Part) : EnvelopeFault :=
  .truncated (DecodeFault.truncated p.text).message (p.start engine)

/-- What is wrong with a part: it is cut off, or its value is wrong. -/
def fault? (engine : Int) (blob : List UInt8) (p : Part) : Option EnvelopeFault :=
  if p.stop engine blob ≤ blob.length then p.wrong? blob else some (p.cut engine)

end Part

/-- What is wrong with the first part of an envelope that cannot be used. -/
def refusal? (engine : Int) (blob : List UInt8) : Option EnvelopeFault :=
  Part.all.findSome? (Part.fault? engine blob)

/-- The fields of an envelope by their offsets. -/
def ofSlices (engine : Int) (blob : List UInt8) : Fields where
  mode := Bytes.toNat (slice blob 4 4)
  digest := storedDigest blob
  length := storedLength blob
  vector := storedVector engine blob
  dataOffset := dataStart engine
  ciphertext := slice blob (dataStart engine) (paddedLength (storedLength blob))

section Reading

variable (engine blob) {α : Type} {w : Int} {n start : Nat} (p : Part) (hw : w = n)
  (hstart : start = p.start engine) (hstop : start + n = p.stop engine blob)

include hw hstart hstop

/-- Bytes of a part, and what is read after them. -/
theorem take_bind (f : List UInt8 × Cursor → Except EnvelopeFault α) :
    (field (Reading.take w p.text) (Cursor.ofBytes blob start) >>= f) =
      if p.stop engine blob ≤ blob.length then
        f (slice blob start n, Cursor.ofBytes blob (p.stop engine blob))
      else .error (p.cut engine) := by
  unfold field Part.cut
  rw [Reading.runFrom_take_ofBytes blob start p.text hw, hstop, ← hstart]
  split_ifs <;> rfl

/-- The number of a part, and what is read after it. -/
theorem uint_bind (f : Nat × Cursor → Except EnvelopeFault α) :
    (field (Reading.uint w p.text) (Cursor.ofBytes blob start) >>= f) =
      if p.stop engine blob ≤ blob.length then
        f (Bytes.toNat (slice blob start n), Cursor.ofBytes blob (p.stop engine blob))
      else .error (p.cut engine) := by
  unfold field Part.cut
  rw [Reading.runFrom_uint_ofBytes blob start p.text hw, hstop, ← hstart]
  split_ifs <;> rfl

end Reading

section Refusing

variable {α β : Type} {x y : Except EnvelopeFault α} {p : Part} {rest : List Part}

/-- A part that is cut off is refused, and so is one with a wrong value; then the next one
follows. -/
theorem elim_findSome? (h : p.stop engine blob ≤ blob.length →
      x = (p.wrong? blob).elim ((rest.findSome? (Part.fault? engine blob)).elim y .error) .error) :
    (if p.stop engine blob ≤ blob.length then x else .error (p.cut engine)) =
      ((p :: rest).findSome? (Part.fault? engine blob)).elim y .error := by
  rw [List.findSome?_cons]
  unfold Part.fault?
  split_ifs with hstop
  · rw [h hstop]
    cases p.wrong? blob <;> rfl
  · rfl

theorem elim_ite {P : Prop} [Decidable P] {e : EnvelopeFault} {k : β → Except EnvelopeFault α}
    (h : P → x = y) :
    (if ¬ P then Except.error e >>= k else x) = (if P then none else some e).elim y .error := by
  split_ifs with hP
  · exact h hP
  · rfl

end Refusing

/-- **The fields** of an envelope are its slices, if no part of it is cut off or wrong. -/
theorem fields_eq (engine : Int) (blob : List UInt8) : fields engine blob =
    (refusal? engine blob).elim (.ok (ofSlices engine blob)) .error := by
  unfold fields refusal? Part.all
  refine (take_bind blob engine (w := 4) (n := 4) .magic rfl rfl rfl _).trans
    (elim_findSome? fun _ => elim_ite fun _ => ?_)
  refine (uint_bind blob engine (w := 4) (n := 4) .mode rfl rfl rfl _).trans
    (elim_findSome? fun _ => elim_ite fun _ => ?_)
  refine (take_bind blob engine (w := 16) (n := 16) .digest rfl rfl rfl _).trans
    (elim_findSome? fun _ => ?_)
  refine (uint_bind blob engine (w := 8) (n := 8) .length rfl rfl rfl _).trans
    (elim_findSome? fun hlength => ?_)
  dsimp only
  by_cases hengine : engine < chainingEngine
  · have hstart : dataStart engine = 32 := if_pos hengine
    have hvector : storedVector engine blob = none := if_pos hengine
    have hskip : [Part.vector, .data].findSome? (Part.fault? engine blob) =
        [Part.data].findSome? (Part.fault? engine blob) := by
      have hfault : Part.fault? engine blob .vector = none := if_pos (hstart.trans_le hlength)
      rw [List.findSome?_cons, hfault]
    rw [if_pos hengine, hskip]
    refine (take_bind blob engine .data rfl hstart.symm
      (congrArg (· + _) hstart.symm) _).trans (elim_findSome? fun _ => ?_)
    unfold ofSlices
    rw [hstart, hvector]
    rfl
  · have hstart : dataStart engine = 32 + blockSize := if_neg hengine
    have hvector : storedVector engine blob = some (slice blob 32 blockSize) := if_neg hengine
    rw [if_neg hengine]
    refine (take_bind blob engine .vector rfl rfl hstart.symm _).trans
      (elim_findSome? fun _ => ?_)
    refine (take_bind blob engine .data rfl rfl rfl _).trans
      (elim_findSome? fun _ => ?_)
    unfold ofSlices
    rw [hvector]
    rfl

/-- An envelope is whole when it has the magic number, the mode, and all of its data. -/
theorem refusal?_eq_none_iff : refusal? engine blob = none ↔
    slice blob 0 4 = magic ∧ Bytes.toNat (slice blob 4 4) = mode ∧
      dataStart engine + paddedLength (storedLength blob) ≤ blob.length := by
  have hiff (p : Part) : Part.fault? engine blob p = none ↔
      p.stop engine blob ≤ blob.length ∧ p.wrong? blob = none := by
    unfold Part.fault?
    split_ifs with hstop
    · simp [hstop]
    · simp [hstop]
  have hstart : 32 ≤ dataStart engine := by
    unfold dataStart
    split_ifs <;> decide
  unfold refusal? Part.all
  simp only [List.findSome?_eq_none_iff, List.forall_mem_cons, List.not_mem_nil, hiff, Part.stop,
    Part.wrong?, ite_eq_left_iff, reduceCtorEq, imp_false, not_not, and_true, false_implies,
    implies_true]
  constructor
  · rintro ⟨⟨-, hmagic⟩, ⟨-, hmode⟩, -, -, -, hdata⟩
    exact ⟨hmagic, hmode, hdata⟩
  · rintro ⟨hmagic, hmode, hdata⟩
    exact ⟨⟨by omega, hmagic⟩, ⟨by omega, hmode⟩, by omega, by omega, by omega, hdata⟩

/-! ## Opening -/

/-- The data that an envelope opens to. -/
def opened (alg : Algorithms) (blob key : List UInt8) (engine : Int) : List UInt8 :=
  (decipher (alg.cipher key) (storedVector engine blob)
    (slice blob (dataStart engine) (paddedLength (storedLength blob)))).take (storedLength blob)

/-- **Why an envelope does not open**: the key has another size, a part is cut off or wrong, or the
data have another digest than the stored one. -/
inductive Refused (alg : Algorithms) (blob key : List UInt8) (engine : Int) : EnvelopeFault → Prop
  | key (hkey : key.length ≠ keySize) : Refused alg blob key engine .keySize
  | part (hkey : key.length = keySize) {e : EnvelopeFault} (h : refusal? engine blob = some e) :
      Refused alg blob key engine e
  | digest (hkey : key.length = keySize) (h : refusal? engine blob = none)
      (hdigest : alg.digest (opened alg blob key engine) ≠ storedDigest blob) :
      Refused alg blob key engine (.digest (dataStart engine))

theorem unwrap_eq (alg : Algorithms) (blob key : List UInt8) (engine : Int) :
    unwrap alg blob key engine =
      if key.length ≠ keySize then .error .keySize
      else (refusal? engine blob).elim
        (if alg.digest (opened alg blob key engine) ≠ storedDigest blob then
            .error (.digest (dataStart engine))
          else .ok (opened alg blob key engine)) .error := by
  unfold unwrap
  rw [fields_eq]
  by_cases hkey : key.length = keySize
  · rw [if_neg (not_not.mpr hkey), if_neg (not_not.mpr hkey)]
    cases refusal? engine blob with
    | some e => rfl
    | none =>
      dsimp only [Option.elim]
      split_ifs with hdigest
      · exact if_pos hdigest
      · exact if_neg hdigest
  · rw [if_pos hkey, if_pos hkey]
    rfl

/-- An envelope opens when it is whole and has the digest of its data. -/
theorem unwrap_eq_ok : unwrap alg blob key engine = .ok plain ↔
    key.length = keySize ∧ refusal? engine blob = none ∧
      alg.digest plain = storedDigest blob ∧ plain = opened alg blob key engine := by
  rw [unwrap_eq]
  by_cases hkey : key.length = keySize
  · rw [if_neg (not_not.mpr hkey)]
    cases refusal? engine blob with
    | some e => simp
    | none =>
      dsimp only [Option.elim]
      split_ifs with hdigest
      · simp only [true_and, false_iff, not_and]
        rintro - h rfl
        exact hdigest h
      · simp only [Except.ok.injEq, hkey, true_and]
        constructor
        · rintro rfl
          exact ⟨not_not.mp hdigest, rfl⟩
        · exact fun h => h.2.symm
  · simp [hkey]

/-- An envelope that does not open is refused. -/
theorem unwrap_eq_error {e : EnvelopeFault} :
    unwrap alg blob key engine = .error e ↔ Refused alg blob key engine e := by
  rw [unwrap_eq]
  constructor
  · intro h
    by_cases hkey : key.length = keySize
    · rw [if_neg (not_not.mpr hkey)] at h
      cases hrefusal : refusal? engine blob with
      | some e' =>
        rw [hrefusal] at h
        cases h
        exact .part hkey hrefusal
      | none =>
        rw [hrefusal] at h
        dsimp only [Option.elim] at h
        split_ifs at h with hdigest
        cases h
        exact .digest hkey hrefusal hdigest
    · rw [if_pos hkey] at h
      cases h
      exact .key hkey
  · rintro (hkey | ⟨hkey, h⟩ | ⟨hkey, h, hdigest⟩)
    · rw [if_pos hkey]
    · rw [if_neg (not_not.mpr hkey), h]
      rfl
    · rw [if_neg (not_not.mpr hkey), h, if_pos hdigest]
      rfl

/-! ## Algorithms -/

/-- What opening needs of the algorithms: deciphering a block undoes enciphering it, and digests
have one size. -/
structure Algorithms.Lawful (alg : Algorithms) : Prop where
  cipher : ∀ key, key.length = keySize → (alg.cipher key).Lawful
  digest : ∀ data, (alg.digest data).length = 16

/-- **The algorithms of the engine** are lawful. -/
theorem standard_lawful : standard.Lawful where
  cipher key h := Aes.cipher_lawful key h
  digest data := by
    unfold standard Md5.digest
    simp only [List.flatMap_cons, List.flatMap_nil, List.length_append, Bytes.length_ofNat,
      List.length_nil]

/-- What the cipher of a library takes: a key of its size, data of whole blocks, and one block as
the initial vector of a chain. -/
structure Accepted (key : List UInt8) (vector : Option (List UInt8)) (data : List UInt8) :
    Prop where
  key : key.length = keySize
  vector : Vector vector
  data : blockSize ∣ data.length

theorem accepted_of_vectorFor (data : List UInt8) {v : Option (List UInt8)}
    (hkey : key.length = keySize) (h : vectorFor engine iv = .ok v) : Accepted key v (pad data) := by
  refine ⟨hkey, ?_, length_pad data ▸ dvd_paddedLength _⟩
  unfold vectorFor at h
  split_ifs at h with hengine hiv
  · cases h
    exact fun _ hv => nomatch hv
  · cases h
    exact fun v hv => Option.some.inj hv ▸ hiv

/-- What is deciphered is within the envelope, so that the cipher takes it. -/
theorem accepted_ofSlices (hkey : key.length = keySize) (h : refusal? engine blob = none) :
    Accepted key (ofSlices engine blob).vector (ofSlices engine blob).ciphertext := by
  obtain ⟨-, -, hdata⟩ := refusal?_eq_none_iff.mp h
  refine ⟨hkey, fun v hv => ?_, ?_⟩
  · unfold ofSlices storedVector at hv
    dsimp only at hv
    split_ifs at hv with hengine
    · cases hv
    · cases hv
      refine Bytes.length_slice ?_
      have hstart : dataStart engine = 32 + blockSize := if_neg hengine
      omega
  · unfold ofSlices
    dsimp only
    rw [Bytes.length_slice hdata]
    exact dvd_paddedLength _

/-! ## Sealing -/

/-- What an envelope opens to has the stored length: the padding is cut off. -/
theorem length_opened (h : alg.Lawful) (hkey : key.length = keySize)
    (hwhole : refusal? engine blob = none) :
    (opened alg blob key engine).length = storedLength blob := by
  obtain ⟨-, hvector, hdata⟩ := accepted_ofSlices hkey hwhole
  obtain ⟨-, -, hlength⟩ := refusal?_eq_none_iff.mp hwhole
  unfold opened
  rw [List.length_take]
  have hdeciphered := length_decipher (h.cipher key hkey) hvector hdata
  unfold ofSlices at hdeciphered
  dsimp only at hdeciphered
  rw [hdeciphered, Bytes.length_slice hlength]
  exact Nat.min_eq_left (le_paddedLength _)

theorem vectorFor_eq_ok {v : Option (List UInt8)} : vectorFor engine iv = .ok v ↔
    engine < chainingEngine ∧ v = none ∨
      ¬ engine < chainingEngine ∧ iv.length = blockSize ∧ v = some iv := by
  unfold vectorFor
  split_ifs with hengine hiv
  · simp [hengine, eq_comm]
  · simp [hengine, hiv, eq_comm]
  · simp [hengine, hiv]

/-- The parts of an envelope one after another. -/
def layout (digest : List UInt8) (length : Nat) (v : Option (List UInt8))
    (ciphertext : List UInt8) : List UInt8 :=
  magic ++ (Bytes.ofNat 4 mode ++ (digest ++ (Bytes.ofNat 8 length ++ (v.getD [] ++ ciphertext))))

section Layout

variable {digest : List UInt8} {length : Nat} {v : Option (List UInt8)}

/-- The parts before the initial vector are found at their offsets. -/
theorem stored_layout (v : Option (List UInt8)) (ciphertext : List UInt8)
    (hdigest : digest.length = 16) (hlength : length < 2 ^ 64) :
    slice (layout digest length v ciphertext) 0 4 = magic ∧
      Bytes.toNat (slice (layout digest length v ciphertext) 4 4) = mode ∧
      storedDigest (layout digest length v ciphertext) = digest ∧
      storedLength (layout digest length v ciphertext) = length := by
  have hmagic : magic.length = 4 := rfl
  have hmode : slice (layout digest length v ciphertext) 4 4 = Bytes.ofNat 4 mode :=
    Bytes.slice_append hmagic (Bytes.length_ofNat _ _)
  refine ⟨rfl, ?_, ?_, ?_⟩
  · rw [hmode]
    exact Bytes.toNat_ofNat (by decide)
  · unfold storedDigest layout
    rw [← List.append_assoc]
    exact Bytes.slice_append (by simp [hmagic]) hdigest
  · unfold storedLength layout
    rw [← List.append_assoc, ← List.append_assoc,
      Bytes.slice_append (by simp [hmagic, hdigest]) (Bytes.length_ofNat _ _)]
    exact Bytes.toNat_ofNat (by omega)

/-- The initial vector and the data are found after them. -/
theorem slices_layout (length : Nat) (ciphertext : List UInt8) (hdigest : digest.length = 16)
    (hv : vectorFor engine iv = .ok v) :
    storedVector engine (layout digest length v ciphertext) = v ∧
      slice (layout digest length v ciphertext) (dataStart engine) ciphertext.length =
        ciphertext ∧
      (layout digest length v ciphertext).length = dataStart engine + ciphertext.length := by
  have hmagic : magic.length = 4 := rfl
  have hfront :
      (magic ++ (Bytes.ofNat 4 mode ++ (digest ++ Bytes.ofNat 8 length))).length = 32 := by
    simp [hmagic, hdigest]
  have hlayout : layout digest length v ciphertext =
      (magic ++ (Bytes.ofNat 4 mode ++ (digest ++ Bytes.ofNat 8 length))) ++
        (v.getD [] ++ (ciphertext ++ [])) := by
    unfold layout
    simp only [List.append_assoc, List.append_nil]
  generalize magic ++ (Bytes.ofNat 4 mode ++ (digest ++ Bytes.ofNat 8 length)) = front at *
  have hstart : 32 + (v.getD []).length = dataStart engine := by
    obtain ⟨hengine, rfl⟩ | ⟨hengine, hiv, rfl⟩ := vectorFor_eq_ok.mp hv
    · exact (if_pos hengine).symm
    · rw [Option.getD_some, hiv]
      exact (if_neg hengine).symm
  rw [hlayout]
  refine ⟨?_, ?_, ?_⟩
  · unfold storedVector
    obtain ⟨hengine, rfl⟩ | ⟨hengine, hiv, rfl⟩ := vectorFor_eq_ok.mp hv
    · exact if_pos hengine
    · rw [if_neg hengine]
      exact congrArg some (Bytes.slice_append hfront hiv)
  · rw [← List.append_assoc]
    exact Bytes.slice_append (by rw [List.length_append, hfront, hstart]) rfl
  · rw [List.length_append, List.length_append, List.append_nil, hfront, ← hstart, Nat.add_assoc]

end Layout

/-- Data are sealed as the parts of an envelope one after another. -/
theorem wrap_eq_ok {v : Option (List UInt8)} (hkey : key.length = keySize)
    (hlength : data.length < 2 ^ 64) (hv : vectorFor engine iv = .ok v) :
    wrap alg data key engine iv =
      .ok (layout (alg.digest data) data.length v (encipher (alg.cipher key) v (pad data))) := by
  have hmode : Bytes.ofUInt? mode 4 = .ok (Bytes.ofNat 4 mode) :=
    (Bytes.ofUInt?_eq_ok (w := 4)).mpr ⟨by decide, by decide, rfl⟩
  have hsize : Bytes.ofUInt? data.length 8 = .ok (Bytes.ofNat 8 data.length) :=
    (Bytes.ofUInt?_eq_ok (w := 8)).mpr ⟨by omega, by omega, rfl⟩
  unfold wrap layout
  rw [if_neg (not_not.mpr hkey), hmode, hsize, hv]
  simp only [← List.append_assoc]
  rfl

/-- **What was sealed** is opened again. -/
theorem unwrap_wrap (h : alg.Lawful) (hkey : key.length = keySize)
    (hlength : data.length < 2 ^ 64) (hiv : chainingEngine ≤ engine → iv.length = blockSize) :
    ∃ blob, wrap alg data key engine iv = .ok blob ∧ unwrap alg blob key engine = .ok data := by
  obtain ⟨v, hv⟩ : ∃ v, vectorFor engine iv = .ok v := by
    by_cases hengine : engine < chainingEngine
    · exact ⟨none, vectorFor_eq_ok.mpr (.inl ⟨hengine, rfl⟩)⟩
    · exact ⟨some iv, vectorFor_eq_ok.mpr (.inr ⟨hengine, hiv (Int.not_lt.mp hengine), rfl⟩)⟩
  obtain ⟨-, hvector, hdata⟩ := accepted_of_vectorFor data hkey hv
  have hc := h.cipher key hkey
  have hpadded : (encipher (alg.cipher key) v (pad data)).length = paddedLength data.length := by
    rw [length_encipher hc hvector hdata, length_pad]
  refine ⟨_, wrap_eq_ok hkey hlength hv, ?_⟩
  obtain ⟨hmagic, hmode, hdigest, hstored⟩ := stored_layout v
    (encipher (alg.cipher key) v (pad data)) (h.digest data) hlength
  obtain ⟨hstoredVector, hslice, hsize⟩ := slices_layout data.length
    (encipher (alg.cipher key) v (pad data)) (h.digest data) hv
  have hopened : opened alg (layout (alg.digest data) data.length v
      (encipher (alg.cipher key) v (pad data))) key engine = data := by
    unfold opened
    rw [hstoredVector, hstored, ← hpadded, hslice, decipher_encipher hc hvector hdata, take_pad]
  refine unwrap_eq_ok.mpr ⟨hkey, refusal?_eq_none_iff.mpr ⟨hmagic, hmode, ?_⟩, hdigest.symm,
    hopened.symm⟩
  rw [hstored, hsize, hpadded]

/-- **Envelopes.** With lawful algorithms and a key of the right size, data of less than 2⁶⁴ bytes
are sealed for every engine, and opened again as they were; an engine with chains needs an initial
vector of one block for it. Every byte string opens, under every key, either to data of the stored
length with the stored digest or not at all, for one of the reasons of `Refused`, which are all
reported as faults of an encrypted script. On neither way is the cipher given what it does not
take. -/
theorem unwrap_exact (alg : Algorithms) (h : alg.Lawful) (key : List UInt8) (engine : Int) :
    (∀ data iv, key.length = keySize → data.length < 2 ^ 64 →
      (4 ≤ engine → iv.length = blockSize) →
      ∃ blob, wrap alg data key engine iv = .ok blob ∧ unwrap alg blob key engine = .ok data) ∧
    (∀ blob, (∃ plain, unwrap alg blob key engine = .ok plain ∧
        plain.length = storedLength blob ∧ alg.digest plain = storedDigest blob) ∨
      ∃ e, unwrap alg blob key engine = .error e ∧ Refused alg blob key engine e ∧
        e.diagnostic.kind = "EncryptedScriptError") ∧
    (∀ data iv v, key.length = keySize → vectorFor engine iv = .ok v → Accepted key v (pad data)) ∧
    ∀ blob f, key.length = keySize → fields engine blob = .ok f →
      Accepted key f.vector f.ciphertext := by
  refine ⟨fun data iv hkey hlength hiv => unwrap_wrap h hkey hlength hiv, fun blob => ?_,
    fun data iv v hkey hv => accepted_of_vectorFor data hkey hv, fun blob f hkey hf => ?_⟩
  · cases hunwrap : unwrap alg blob key engine with
    | ok plain =>
      obtain ⟨hkey, hwhole, hdigest, rfl⟩ := unwrap_eq_ok.mp hunwrap
      exact .inl ⟨_, rfl, length_opened h hkey hwhole, hdigest⟩
    | error e => exact .inr ⟨e, rfl, unwrap_eq_error.mp hunwrap, rfl⟩
  · rw [fields_eq] at hf
    cases hrefusal : refusal? engine blob with
    | some e =>
      rw [hrefusal] at hf
      cases hf
    | none =>
      rw [hrefusal] at hf
      cases hf
      exact accepted_ofSlices hkey hrefusal

/-- With the algorithms of the engine: seventeen bytes in a chain, no bytes at all without one, and
a byte string that is no envelope. -/
theorem unwrap_exact_standard :
    (∃ blob, wrap standard (List.replicate 17 1) (List.replicate 32 7) 4 (List.replicate 16 9) =
        .ok blob ∧
      unwrap standard blob (List.replicate 32 7) 4 = .ok (List.replicate 17 1)) ∧
    (∃ blob, wrap standard [] (List.replicate 32 7) 3 [] = .ok blob ∧
      unwrap standard blob (List.replicate 32 7) 3 = .ok []) ∧
    ∃ e, unwrap standard [0x47, 0x44] (List.replicate 32 7) 3 = .error e ∧
      e.diagnostic.kind = "EncryptedScriptError" := by
  obtain ⟨hchained, -⟩ := unwrap_exact standard standard_lawful (List.replicate 32 7) 4
  obtain ⟨hsingle, hany, -⟩ := unwrap_exact standard standard_lawful (List.replicate 32 7) 3
  refine ⟨hchained _ _ (by decide) (by decide) (by decide),
    hsingle _ _ (by decide) (by decide) (by decide), ?_⟩
  obtain ⟨plain, hplain, -⟩ | ⟨e, he, -, hkind⟩ := hany [0x47, 0x44]
  · exact absurd hplain (fun h => nomatch h)
  · exact ⟨e, he, hkind⟩

end Unscript.Envelope
