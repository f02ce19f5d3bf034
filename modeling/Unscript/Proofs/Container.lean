import Unscript.Container
import Unscript.Proofs.Bytes.Slices
import Unscript.Proofs.Outcome

/-!
# Containers read and written

The header of a container is four fields at the front of a byte string; all that follows is the
payload. A container is opened when all four are whole and the first is the magic number. What was
opened is written as the bytes that it was opened from, and what was written is opened again.

* `Container.HeaderField`: the fields of the header, in their order.
* `Container.faulty?`: the first of them that is cut off or wrong.

Results:
* `Container.ofBytes_eq`: opening fails at the first faulty field, and without one it reads the fields
  at their offsets.
* `Container.toBytes?_ofSlices`, `Container.ofBytes_of_toBytes?`: both ways round.
* `Container.ofBytes_exact`: which byte strings are containers, and what becomes of them.
-/

namespace Unscript.Container

open Bytes (slice)
open Text (quotedBytes)

-- Powers are those of `NatPow`, whichever other instances a proof brings into scope.
attribute [local instance (1100)] instPowNat

variable {blob bs : List UInt8} {name : String} {c : Container}

/-! ## The header -/

/-- The fields of the header of a container. -/
inductive HeaderField where
  | magic
  | format
  | tagLength
  | tag
  deriving DecidableEq, Repr

namespace HeaderField

/-- Where a field starts. -/
def start : HeaderField → Nat
  | .magic => 0
  | .format => 4
  | .tagLength => 8
  | .tag => 9

/-- Where a field of a byte string ends; the tag has as many bytes as the byte before it says. -/
def stop (blob : List UInt8) : HeaderField → Nat
  | .magic => 4
  | .format => 8
  | .tagLength => 9
  | .tag => 9 + (blob.getD 8 0).toNat

/-- The words for a field. -/
def text : HeaderField → String
  | .magic => "magic"
  | .format => "format version"
  | .tagLength => "tag length"
  | .tag => "version tag"

/-- Whether a field of a byte string is cut off, or is the magic number and another one than that
of containers. -/
def Faulty (blob : List UInt8) (f : HeaderField) : Prop :=
  blob.length < f.stop blob ∨ f = .magic ∧ blob.take 4 ≠ Container.magic

instance (blob : List UInt8) (f : HeaderField) : Decidable (f.Faulty blob) :=
  inferInstanceAs (Decidable (_ ∨ _))

/-- What is wrong with a faulty field. -/
def fault (blob : List UInt8) (f : HeaderField) : DecodeFault :=
  if blob.length < f.stop blob then .truncated f.text else .badMagic (quotedBytes (blob.take 4))

end HeaderField

/-- The first field of a header that is cut off or wrong. -/
def faulty? (blob : List UInt8) : Option HeaderField :=
  [.magic, .format, .tagLength, .tag].find? fun f => f.Faulty blob

/-- The container that the fields of a byte string make. -/
def ofSlices (blob : List UInt8) (name : String) : Container where
  tag := slice blob 9 (blob.getD 8 0).toNat
  payload := blob.drop (9 + (blob.getD 8 0).toNat)
  format := some (Bytes.toNat (slice blob 4 4))
  name := name

/-- Only the magic number can be wrong without being cut off. -/
theorem HeaderField.faulty_iff {f : HeaderField} (h : f ≠ .magic) :
    f.Faulty blob ↔ blob.length < f.stop blob :=
  or_iff_left fun hmagic => h hmagic.1

/-- What opening makes of the header that was read. -/
def made (name : String) : Except DecodeError (Nat × List UInt8) × Cursor →
    Except DecodeError Container
  | (.ok (format, tag), c) => .ok ⟨tag, c.rest, some format, name⟩
  | (.error e, _) => .error e

/-- What opening gives when some fields are left to be read. -/
def answer (blob : List UInt8) (name : String) (fs : List HeaderField) :
    Except DecodeError Container :=
  match fs.find? fun f => f.Faulty blob with
  | some f => .error ⟨f.fault blob, f.start⟩
  | none => .ok (ofSlices blob name)

section Answer

variable {f : HeaderField} {fs : List HeaderField}
  {x : Except DecodeError (Nat × List UInt8) × Cursor} {c : Cursor}

theorem answer_of_faulty (h : f.Faulty blob) :
    answer blob name (f :: fs) = .error ⟨f.fault blob, f.start⟩ := by
  unfold answer
  rw [List.find?_cons, decide_eq_true h]

theorem answer_of_not_faulty (h : ¬ f.Faulty blob) :
    answer blob name (f :: fs) = answer blob name fs := by
  unfold answer
  rw [List.find?_cons, decide_eq_false h]

/-- A field is cut off, or its value is used. -/
theorem made_ite (h : f.stop blob ≤ blob.length → made name x = answer blob name (f :: fs)) :
    made name (if f.stop blob ≤ blob.length then x else (.error ⟨.truncated f.text, f.start⟩, c)) =
      answer blob name (f :: fs) := by
  split_ifs with hstop
  · exact h hstop
  · have hcut : blob.length < f.stop blob := Nat.not_le.mp hstop
    have hfault : f.fault blob = .truncated f.text := if_pos hcut
    rw [answer_of_faulty (.inl hcut), hfault]
    rfl

/-- After a field that can only be cut off the next one follows. -/
theorem made_next (hf : f ≠ .magic)
    (h : f.stop blob ≤ blob.length → made name x = answer blob name fs) :
    made name (if f.stop blob ≤ blob.length then x else (.error ⟨.truncated f.text, f.start⟩, c)) =
      answer blob name (f :: fs) :=
  made_ite fun hstop => (h hstop).trans
    (answer_of_not_faulty (mt (HeaderField.faulty_iff hf).mp (Nat.not_lt.mpr hstop))).symm

end Answer

/-- A header is read field by field. -/
theorem ofBytes_eq_answer (blob : List UInt8) (name : String) :
    ofBytes blob name = answer blob name [.magic, .format, .tagLength, .tag] := by
  have hmade : ofBytes blob name = made name (header.runFrom (Cursor.ofBytes blob)) := rfl
  rw [hmade]
  unfold header
  rw [Reading.runFrom_take_bind (w := 4) (n := 4) blob 0 "magic" rfl]
  refine made_ite (f := .magic) fun hstop => ?_
  by_cases hm : slice blob 0 4 = magic
  · have hsound : ¬ HeaderField.magic.Faulty blob := by
      rintro (h | ⟨-, h⟩)
      · exact absurd hstop (Nat.not_le.mpr h)
      · exact h hm
    rw [answer_of_not_faulty hsound, if_neg (not_not.mpr hm),
      Reading.runFrom_uint_bind (w := 4) (n := 4) blob (0 + 4) "format version" rfl]
    refine made_next (f := .format) (by decide) fun _ => ?_
    rw [Reading.runFrom_uint_bind (w := 1) (n := 1) blob (0 + 4 + 4) "tag length" rfl]
    refine made_next (f := .tagLength) (by decide) fun hlength => ?_
    rw [Bytes.toNat_slice_one hlength,
      Reading.runFrom_take_bind blob (0 + 4 + 4 + 1) "version tag" rfl]
    exact made_next (f := .tag) (by decide) fun _ => rfl
  · have hshort : ¬ blob.length < 4 := Nat.not_lt.mpr hstop
    have hfault : HeaderField.magic.fault blob = .badMagic (quotedBytes (slice blob 0 4)) :=
      if_neg hshort
    have hfaulty : HeaderField.magic.Faulty blob := .inr ⟨rfl, hm⟩
    rw [answer_of_faulty hfaulty, if_pos hm, hfault]
    rfl

theorem ofBytes_eq (blob : List UInt8) (name : String) : ofBytes blob name =
    match faulty? blob with
    | some f => .error ⟨f.fault blob, f.start⟩
    | none => .ok (ofSlices blob name) :=
  ofBytes_eq_answer blob name

/-- No field is faulty when the magic number stands in front and the tag ends by the end. -/
theorem faulty?_eq_none_iff : faulty? blob = none ↔
    magic <+: blob ∧ 9 ≤ blob.length ∧ 9 + (blob.getD 8 0).toNat ≤ blob.length := by
  have hprefix : magic <+: blob ↔ blob.take 4 = magic := by
    rw [List.prefix_iff_eq_take]
    exact eq_comm
  unfold faulty?
  simp only [List.find?_eq_none, List.forall_mem_cons, List.not_mem_nil, decide_eq_true_eq]
  simp only [HeaderField.Faulty, HeaderField.stop, reduceCtorEq, false_and, or_false, true_and,
    not_or, not_not, not_lt, hprefix]
  constructor
  · rintro ⟨⟨-, hm⟩, -, h9, htag, -⟩
    exact ⟨hm, h9, htag⟩
  · rintro ⟨hm, h9, htag⟩
    exact ⟨⟨by omega, hm⟩, by omega, h9, htag, fun _ h => h.elim⟩

/-! ## Written back -/

/-- **What was opened** is written as the bytes that it was opened from. -/
theorem toBytes?_ofSlices (h : faulty? blob = none) (name : String) :
    (ofSlices blob name).toBytes? = .ok blob := by
  obtain ⟨⟨rest, hrest⟩, h9, htag⟩ := faulty?_eq_none_iff.mp h
  have hformat : Bytes.ofUInt? (Bytes.toNat (slice blob 4 4)) 4 = .ok (slice blob 4 4) :=
    Bytes.ofUInt?_toNat (congrArg _ (Bytes.length_slice (by omega)))
  have hlength : Bytes.ofUInt? (slice blob 9 (blob.getD 8 0).toNat).length 1 =
      .ok (slice blob 8 1) := by
    rw [Bytes.length_slice htag, ← Bytes.toNat_slice_one (by omega)]
    exact Bytes.ofUInt?_toNat (congrArg _ (Bytes.length_slice (by omega)))
  have hmagic : slice blob 0 4 = magic := by
    rw [← hrest]
    rfl
  unfold toBytes? ofSlices
  simp only [Option.getD_some, hformat, hlength, ← hmagic]
  refine congrArg Except.ok ?_
  simp only [List.append_assoc]
  rw [Bytes.slice_append_drop, Bytes.slice_append_drop, Bytes.slice_append_drop,
    Bytes.slice_append_drop]
  rfl

/-- A container is written as its fields one after another, if its format number fits four bytes
and its tag the one byte of its length. -/
theorem toBytes?_eq_ok : c.toBytes? = .ok bs ↔
    0 ≤ c.format.getD 0 ∧ c.format.getD 0 < 2 ^ 32 ∧ c.tag.length ≤ 255 ∧
      bs = magic ++ (Bytes.ofNat 4 (c.format.getD 0).toNat ++
        (Bytes.ofNat 1 c.tag.length ++ (c.tag ++ c.payload))) := by
  unfold toBytes?
  rw [Outcome.bind_eq_ok]
  constructor
  · rintro ⟨format, hformat, h⟩
    obtain ⟨length, hlength, h⟩ := Outcome.bind_eq_ok.mp h
    obtain ⟨hnonneg, hlt, rfl⟩ := (Bytes.ofUInt?_eq_ok (w := 4)).mp hformat
    obtain ⟨-, htag, rfl⟩ := (Bytes.ofUInt?_eq_ok (w := 1)).mp hlength
    cases h
    refine ⟨hnonneg, hlt, by omega, ?_⟩
    simp only [List.append_assoc, Int.toNat_natCast]
  · rintro ⟨hnonneg, hlt, htag, rfl⟩
    refine ⟨_, (Bytes.ofUInt?_eq_ok (w := 4)).mpr ⟨hnonneg, hlt, rfl⟩, ?_⟩
    refine Outcome.bind_eq_ok.mpr
      ⟨_, (Bytes.ofUInt?_eq_ok (w := 1)).mpr ⟨by omega, by omega, rfl⟩, ?_⟩
    simp only [List.append_assoc, Int.toNat_natCast]
    rfl

/-- **What was written** is opened again. -/
theorem ofBytes_of_toBytes? {n : Int} (hn : c.format = some n) (h : c.toBytes? = .ok bs) :
    ofBytes bs c.name = .ok c := by
  obtain ⟨hnonneg, hlt, htag, hbs⟩ := toBytes?_eq_ok.mp h
  rw [hn, Option.getD_some] at hnonneg hlt hbs
  have hmagic : magic.length = 4 := rfl
  have hsize : bs.length = 9 + c.tag.length + c.payload.length := by
    rw [hbs]
    simp only [List.length_append, Bytes.length_ofNat, hmagic]
    omega
  -- The fields are found at their offsets.
  have hformat : Bytes.toNat (slice bs 4 4) = n.toNat := by
    have hslice : slice bs 4 4 = Bytes.ofNat 4 n.toNat := by
      rw [hbs]
      exact Bytes.slice_append hmagic (Bytes.length_ofNat _ _)
    rw [hslice]
    exact Bytes.toNat_ofNat (by omega)
  have hlength : (bs.getD 8 0).toNat = c.tag.length := by
    have hslice : slice bs 8 1 = Bytes.ofNat 1 c.tag.length := by
      rw [hbs, ← List.append_assoc]
      exact Bytes.slice_append (by simp [hmagic]) (Bytes.length_ofNat _ _)
    rw [← Bytes.toNat_slice_one (by omega), hslice]
    exact Bytes.toNat_ofNat (by omega)
  have htagSlice : slice bs 9 c.tag.length = c.tag := by
    rw [hbs, ← List.append_assoc, ← List.append_assoc]
    exact Bytes.slice_append (by simp [hmagic]) rfl
  have hpayload : bs.drop (9 + c.tag.length) = c.payload := by
    rw [hbs, ← List.append_assoc, ← List.append_assoc, ← List.append_assoc]
    refine List.drop_left' ?_
    simp only [List.length_append, Bytes.length_ofNat, hmagic]
  have hsound : faulty? bs = none :=
    faulty?_eq_none_iff.mpr ⟨hbs ▸ List.prefix_append _ _, by omega, by omega⟩
  rw [ofBytes_eq, hsound]
  dsimp only
  unfold ofSlices
  rw [hlength, htagSlice, hpayload, hformat, Int.toNat_of_nonneg hnonneg, ← hn]

/-! ## Containers -/

/-- **Containers.** A byte string is opened exactly when it starts with the magic number, holds the
nine bytes before the tag, and as many bytes more as the last of these says. What was opened is
written as the same bytes. A container whose format number fits four bytes and whose tag fits the
one byte of its length is written, and opened again as it was; no other one is written. When a byte
string is not opened, the error stands at the start of the first field of the header that is cut
off or wrong. -/
theorem ofBytes_exact (name : String) :
    (∀ blob, (∃ c, ofBytes blob name = .ok c) ↔
      magic <+: blob ∧ 9 ≤ blob.length ∧ 9 + (blob.getD 8 0).toNat ≤ blob.length) ∧
    (∀ blob c, ofBytes blob name = .ok c → c.name = name ∧ c.toBytes? = .ok blob) ∧
    (∀ c : Container, ∀ n : Nat, c.format = some (n : Int) → n < 2 ^ 32 → c.tag.length ≤ 255 →
      ∃ blob, c.toBytes? = .ok blob ∧ ofBytes blob c.name = .ok c) ∧
    (∀ c : Container, ∀ blob, c.toBytes? = .ok blob →
      0 ≤ c.format.getD 0 ∧ c.format.getD 0 < 2 ^ 32 ∧ c.tag.length ≤ 255) ∧
    ∀ blob e, ofBytes blob name = .error e →
      ∃ f, faulty? blob = some f ∧ e = ⟨f.fault blob, f.start⟩ := by
  refine ⟨fun blob => ?_, fun blob c h => ?_, fun c n hformat hn htag => ?_, fun c blob h => ?_,
    fun blob e h => ?_⟩
  · rw [← faulty?_eq_none_iff, ofBytes_eq]
    cases faulty? blob with
    | none => exact ⟨fun _ => rfl, fun _ => ⟨_, rfl⟩⟩
    | some f => exact ⟨fun ⟨_, h⟩ => (nomatch h), fun h => (nomatch h)⟩
  · rw [ofBytes_eq] at h
    cases hfaulty : faulty? blob with
    | none =>
      rw [hfaulty] at h
      cases h
      exact ⟨rfl, toBytes?_ofSlices hfaulty name⟩
    | some f =>
      rw [hfaulty] at h
      cases h
  · have hlow : (0 : Int) ≤ c.format.getD 0 := by
      rw [hformat, Option.getD_some]
      omega
    have hhigh : c.format.getD 0 < 2 ^ 32 := by
      rw [hformat, Option.getD_some]
      omega
    have hwritten := toBytes?_eq_ok.mpr ⟨hlow, hhigh, htag, rfl⟩
    exact ⟨_, hwritten, ofBytes_of_toBytes? hformat hwritten⟩
  · obtain ⟨hnonneg, hlt, htag, -⟩ := toBytes?_eq_ok.mp h
    exact ⟨hnonneg, hlt, htag⟩
  · rw [ofBytes_eq] at h
    cases hfaulty : faulty? blob with
    | none =>
      rw [hfaulty] at h
      cases h
    | some f =>
      rw [hfaulty] at h
      cases h
      exact ⟨f, rfl, rfl⟩

/-- A container with a tag and a payload, and a byte string that ends within the tag. -/
theorem ofBytes_exact_tagged :
    (∃ blob, (⟨[0x56, 0x5f], [0, 1], some 2, "a.gdc"⟩ : Container).toBytes? = .ok blob ∧
      ofBytes blob "a.gdc" = .ok ⟨[0x56, 0x5f], [0, 1], some 2, "a.gdc"⟩) ∧
    (⟨[0x56], [7], some 2, "a.gdc"⟩ : Container).toBytes? =
      .ok [0x47, 0x44, 0x53, 0x43, 2, 0, 0, 0, 1, 0x56, 7] ∧
    ∃ f, faulty? [0x47, 0x44, 0x53, 0x43, 2, 0, 0, 0, 9, 0x56] = some f ∧ f.start = 9 := by
  obtain ⟨-, hback, hthere, -, herror⟩ := ofBytes_exact "a.gdc"
  refine ⟨hthere ⟨[0x56, 0x5f], [0, 1], some 2, "a.gdc"⟩ 2 rfl (by decide) (by decide), ?_, ?_⟩
  · exact (hback _ ⟨[0x56], [7], some 2, "a.gdc"⟩ rfl).2
  · obtain ⟨f, hf, he⟩ := herror [0x47, 0x44, 0x53, 0x43, 2, 0, 0, 0, 9, 0x56]
      ⟨.truncated "version tag", 9⟩ rfl
    exact ⟨f, hf, (congrArg DecodeError.offset he).symm⟩

end Unscript.Container
