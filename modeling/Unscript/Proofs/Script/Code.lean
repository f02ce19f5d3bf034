import Unscript.Proofs.Script.Tables

/-!
# Streams of instructions

A stream that is decoded to its end is cut into instructions without gap or overlap: each stands
where the one before it ends. Every instruction is one of the dialect's, with operands in range,
and the jumps lead to instructions or to the end.

* `Tiles`: instructions that follow each other from one offset to another.
* `Instruction.Conforms`: an instruction of a dialect with operands in range.
* `Decoded`: what is known of all the instructions of a function.

Results:
* `Tiles.nodup_offset`: instructions that follow each other stand at different offsets.
* `Encode.instruction_eq_ok`: what an instruction is written as.
* `Decode.instruction_through`, `Decode.instructions_through`: what one reading step gives, and a
  whole stream.
* `Decode.applyLines_forall₂`: lines are all that the line table changes of the instructions.
* `Decode.code_ok`: the instructions of a stream that was decoded to its end.
-/

namespace Unscript

open Reading (Consumes runFrom_bind_ok)

/-! ## Instructions of a dialect -/

/-- Instructions that follow each other from one offset to another. -/
inductive Tiles : Nat → List Instruction → Nat → Prop where
  | nil (n : Nat) : Tiles n [] n
  | cons {n m : Nat} {i : Instruction} {is : List Instruction} (hoff : i.offset = n)
      (hsize : 0 < i.size) (h : Tiles (n + i.size) is m) : Tiles n (i :: is) m

/-- An instruction of a dialect, with operands in range. -/
structure Instruction.Conforms (d : Dialect) (locals : Nat) (pool : List Constant)
    (i : Instruction) : Prop where
  operation : ∃ op, d.operationAt? i.opcode = some op ∧ i.mnemonic = op.mnemonic ∧
    i.kinds = op.operands ∧ i.transfer = op.transfer ∧ i.stackDelta = op.stackDelta i.operands
  length : i.operands.length = i.kinds.length
  inRange : ∀ o ∈ i.kinds.zip i.operands, Decode.operandFault? d locals pool o.1 o.2 = none

/-- The instructions of a function that was decoded to its end. -/
structure Decoded (d : Dialect) (locals : Nat) (pool : List Constant) (length : Nat)
    (is : List Instruction) : Prop where
  tiles : Tiles 0 is length
  conforms : ∀ i ∈ is, i.Conforms d locals pool
  jumps : ∀ i ∈ is, ∀ t, (OperandKind.jump, t) ∈ i.kinds.zip i.operands →
    t = length ∨ ∃ j ∈ is, j.offset = t

/-! ## Offsets -/

namespace Tiles

variable {n m : Nat} {is : List Instruction}

theorem le_offset (h : Tiles n is m) : ∀ i ∈ is, n ≤ i.offset := by
  induction h with
  | nil => exact fun _ hi => absurd hi List.not_mem_nil
  | cons hoff _ _ ih =>
    rintro j hj
    rcases List.mem_cons.mp hj with rfl | hj
    · exact Nat.le_of_eq hoff.symm
    · exact Nat.le_trans (Nat.le_add_right _ _) (ih j hj)

theorem le (h : Tiles n is m) : n ≤ m := by
  induction h with
  | nil => exact Nat.le_refl _
  | cons _ _ _ ih => exact Nat.le_trans (Nat.le_add_right _ _) ih

theorem offset_lt (h : Tiles n is m) : ∀ i ∈ is, i.offset < m := by
  induction h with
  | nil => exact fun _ hi => absurd hi List.not_mem_nil
  | cons hoff hsize h ih =>
    intro j hj
    rcases List.mem_cons.mp hj with rfl | hj
    · have := h.le
      omega
    · exact ih j hj

/-- **Offsets.** Instructions that follow each other stand at different offsets. -/
theorem nodup_offset (h : Tiles n is m) : (is.map (·.offset)).Nodup := by
  induction h with
  | nil => exact List.nodup_nil
  | @cons n m i is hoff hsize h ih =>
    rw [List.map_cons, List.nodup_cons]
    refine ⟨fun hmem => ?_, ih⟩
    obtain ⟨j, hj, hsame⟩ := List.mem_map.mp hmem
    have := h.le_offset j hj
    omega

/-- The last instruction ends where they end. -/
theorem ending_getLast? (h : Tiles n is m) {i : Instruction} (hi : is.getLast? = some i) :
    i.ending = m := by
  induction h with
  | nil => cases hi
  | @cons n m j is hoff _ h ih =>
    cases is with
    | nil =>
      cases h
      cases hi
      exact congrArg (· + j.size) hoff
    | cons k is => exact ih (by rwa [List.getLast?_cons_cons] at hi)

end Tiles

/-! ## Lines -/

/-- The same instruction, perhaps with another line. -/
def Instruction.Relined (i j : Instruction) : Prop :=
  j = { i with line := j.line }

theorem Tiles.relined {n m : Nat} {is js : List Instruction}
    (h : List.Forall₂ Instruction.Relined is js) (ht : Tiles n is m) : Tiles n js m := by
  induction h generalizing n with
  | nil => exact ht
  | cons hij _ ih =>
    cases ht with
    | cons hoff hsize ht =>
      rw [hij]
      exact .cons hoff hsize (ih ht)

/-- Every instruction with lines was an instruction before. -/
theorem Instruction.exists_relined {is js : List Instruction}
    (h : List.Forall₂ Instruction.Relined is js) : ∀ j ∈ js, ∃ i ∈ is, i.Relined j := by
  induction h with
  | nil => simp
  | cons hij _ ih =>
    intro j hj
    rcases List.mem_cons.mp hj with rfl | hj
    · exact ⟨_, List.mem_cons_self, hij⟩
    · obtain ⟨i, hi, hij⟩ := ih j hj
      exact ⟨i, List.mem_cons_of_mem _ hi, hij⟩

/-- What is known of the instructions of a function does not depend on their lines. -/
theorem Decoded.relined {d : Dialect} {locals length : Nat} {pool : List Constant}
    {is js : List Instruction} (h : List.Forall₂ Instruction.Relined is js)
    (hd : Decoded d locals pool length is) : Decoded d locals pool length js := by
  have back := Instruction.exists_relined h
  have forth : ∀ i ∈ is, ∃ j ∈ js, i.Relined j := by
    clear hd back
    induction h with
    | nil => simp
    | cons hij _ ih =>
      intro i hi
      rcases List.mem_cons.mp hi with rfl | hi
      · exact ⟨_, List.mem_cons_self, hij⟩
      · obtain ⟨j, hj, hij⟩ := ih i hi
        exact ⟨j, List.mem_cons_of_mem _ hj, hij⟩
  refine ⟨hd.tiles.relined h, ?_, ?_⟩
  · intro j hj
    obtain ⟨i, hi, hij⟩ := back j hj
    obtain ⟨hop, hlen, hrange⟩ := hd.conforms i hi
    rw [hij]
    exact ⟨hop, hlen, hrange⟩
  · intro j hj t ht
    obtain ⟨i, hi, hij⟩ := back j hj
    rw [hij] at ht
    rcases hd.jumps i hi t ht with hlast | ⟨k, hk, hoff⟩
    · exact Or.inl hlast
    · obtain ⟨l, hl, hkl⟩ := forth k hk
      refine Or.inr ⟨l, hl, ?_⟩
      rw [hkl]
      exact hoff

/-! ## Writing an instruction -/

namespace Encode

variable {d : Dialect} {mnemonic : String}

theorem encodingOf_eq_ok {e : Nat × Operation} :
    encodingOf d mnemonic = .ok e ↔ d.encoding? mnemonic = some e := by
  unfold encodingOf
  cases d.encoding? mnemonic <;> simp

theorem checkCount_eq_ok {op : Operation} {given : Nat} {u : Unit} :
    checkCount op given = .ok u ↔ given = op.operands.length := by
  unfold checkCount
  split <;> simp_all

/-- The fields that an instruction is written as: its opcode and its operands, each of which fits
its width. -/
structure Fields (d : Dialect) (mnemonic : String) (operands : List Int) (code : Nat)
    (op : Operation) (head : List UInt8) (parts : List (List UInt8)) : Prop where
  encoding : d.encoding? mnemonic = some (code, op)
  count : operands.length = op.operands.length
  head : Bytes.ofUInt? code d.opcodeWidth = .ok head
  parts : List.Forall₂ (fun o bs => Bytes.ofUInt? o.2 (d.operandWidth o.1) = .ok bs)
    (op.operands.zip operands) parts

/-- **One instruction** is written as its fields. -/
theorem instruction_eq_ok {operands : List Int} {bs : List UInt8} :
    instruction d mnemonic operands = .ok bs ↔
      ∃ code op head parts, Fields d mnemonic operands code op head parts ∧
        bs = head ++ parts.flatten := by
  unfold instruction
  constructor
  · intro h
    obtain ⟨⟨code, op⟩, hencoding, h⟩ := Outcome.bind_eq_ok.mp h
    obtain ⟨_, hcount, h⟩ := Outcome.bind_eq_ok.mp h
    obtain ⟨head, hhead, h⟩ := Outcome.bind_eq_ok.mp h
    obtain ⟨parts, hparts, h⟩ := Outcome.bind_eq_ok.mp h
    cases h
    exact ⟨code, op, head, parts, ⟨encodingOf_eq_ok.mp hencoding, checkCount_eq_ok.mp hcount, hhead,
      Outcome.mapM_eq_ok.mp hparts⟩, rfl⟩
  · rintro ⟨code, op, head, parts, h, rfl⟩
    refine Outcome.bind_eq_ok.mpr ⟨(code, op), encodingOf_eq_ok.mpr h.encoding, ?_⟩
    refine Outcome.bind_eq_ok.mpr ⟨(), checkCount_eq_ok.mpr h.count, ?_⟩
    refine Outcome.bind_eq_ok.mpr ⟨head, h.head, ?_⟩
    exact Outcome.bind_eq_ok.mpr ⟨parts, Outcome.mapM_eq_ok.mpr h.parts, rfl⟩

/-- No operand of an instruction that is written is negative. -/
theorem exists_natural {operands : List Int} {bs : List UInt8}
    (h : instruction d mnemonic operands = .ok bs) :
    ∃ values : List Nat, operands = values.map fun (n : Nat) => (n : Int) := by
  obtain ⟨code, op, head, parts, hfields, -⟩ := instruction_eq_ok.mp h
  have hnonneg : ∀ z ∈ operands, 0 ≤ z := by
    intro z hz
    rw [← List.map_snd_zip (Nat.le_of_eq hfields.count)] at hz
    obtain ⟨o, ho, rfl⟩ := List.mem_map.mp hz
    obtain ⟨bs, -, hbs⟩ := Outcome.exists_of_mem_left hfields.parts ho
    exact Bytes.nonneg_of_ofUInt? hbs
  refine ⟨operands.map Int.toNat, ?_⟩
  calc operands
      = operands.map id := (List.map_id _).symm
    _ = operands.map fun z => (z.toNat : Int) :=
        List.map_congr_left fun z hz => (Int.toNat_of_nonneg (hnonneg z hz)).symm
    _ = (operands.map Int.toNat).map fun (n : Nat) => (n : Int) := List.map_map.symm

end Encode

namespace Decode

theorem mergeLines_forall₂ (current : Option Nat) (entries : List (Nat × Nat))
    (is : List Instruction) :
    List.Forall₂ Instruction.Relined is (mergeLines current entries is) := by
  induction is generalizing current entries with
  | nil => exact .nil
  | cons i is ih =>
    unfold mergeLines
    refine .cons ?_ (ih _ _)
    unfold Instruction.Relined
    split <;> rfl

/-- Lines are all that the line table changes of the instructions. -/
theorem applyLines_forall₂ (is : List Instruction) (lines : List (Nat × Nat)) :
    List.Forall₂ Instruction.Relined is (applyLines is lines) :=
  mergeLines_forall₂ _ _ is

variable {d : Dialect} {locals : Nat} {pool : List Constant} {start codeEnd : Nat}

/-! ## Reading one instruction -/

/-- An operand that is read is in range, and written as the bytes it was read from. -/
theorem operand_through {mnemonic : String} {kind : OperandKind} {c c' : Cursor} {p : PlacedOperand}
    (hc : c.Valid) (h : (operand d locals pool mnemonic codeEnd kind).runFrom c = (.ok p, c')) :
    ∃ bs, c.Through bs c' ∧ c'.offset ≤ codeEnd ∧ p.kind = kind ∧
      operandFault? d locals pool p.kind p.value = none ∧
      Bytes.ofUInt? p.value (d.operandWidth p.kind) = .ok bs := by
  obtain ⟨_, _, hoff, h⟩ := runFrom_bind_ok h
  cases hoff
  obtain ⟨value, c₁, hvalue, h⟩ := runFrom_bind_ok h
  obtain ⟨bs, hthrough, hlen, hn, hbound⟩ := Reading.uint_ok hc hvalue
  have hend : c₁.offset ≤ codeEnd := by
    unfold Cursor.bound at hbound
    simp only at hbound
    omega
  split at h
  · cases h
  · rename_i hfault
    cases h
    refine ⟨bs, hthrough, hend, rfl, hfault, ?_⟩
    rw [← hn]
    exact Bytes.ofUInt?_toNat hlen

/-- The operands of an instruction, read one after another. -/
theorem operands_through {mnemonic : String} {kinds : List OperandKind} {c c' : Cursor}
    {placed : List PlacedOperand} (hc : c.Valid) (hoff : c.offset ≤ codeEnd)
    (h : (kinds.mapM (operand d locals pool mnemonic codeEnd)).runFrom c = (.ok placed, c')) :
    ∃ parts, c.Through parts.flatten c' ∧ c'.offset ≤ codeEnd ∧ placed.map (·.kind) = kinds ∧
      (∀ p ∈ placed, operandFault? d locals pool p.kind p.value = none) ∧
      List.Forall₂ (fun p bs => Bytes.ofUInt? p.value (d.operandWidth p.kind) = .ok bs) placed
        parts := by
  induction kinds generalizing c placed with
  | nil =>
    cases h
    exact ⟨[], .refl _, hoff, rfl, by simp, .nil⟩
  | cons kind kinds ih =>
    rw [List.mapM_cons] at h
    obtain ⟨p, c₁, hp, h⟩ := runFrom_bind_ok h
    obtain ⟨rest, c₂, hrest, h⟩ := runFrom_bind_ok h
    cases h
    obtain ⟨bs, hthrough, hoff', hkind, hfault, hbs⟩ := operand_through hc hp
    obtain ⟨parts, hthrough', hoff'', hkinds, hfaults, hparts⟩ :=
      ih (hthrough.valid hc) hoff' hrest
    refine ⟨bs :: parts, hthrough.trans hthrough', hoff'', ?_, ?_, .cons hbs hparts⟩
    · rw [List.map_cons, hkind, hkinds]
    · intro q hq
      rcases List.mem_cons.mp hq with rfl | hq
      · exact hfault
      · exact hfaults q hq

/-- What is known of an instruction with its placed operands, and of the bytes it was read from. -/
structure ReadAs (d : Dialect) (locals : Nat) (pool : List Constant) (p : Placed)
    (bs : List UInt8) : Prop where
  conforms : p.1.Conforms d locals pool
  size : p.1.size = bs.length
  size_pos : 0 < bs.length
  kinds : p.2.map (·.kind) = p.1.kinds
  operands : p.2.map (·.value) = p.1.operands
  written : d.Regular →
    Encode.instruction d p.1.mnemonic (p.1.operands.map fun (n : Nat) => (n : Int)) = .ok bs

/-- An instruction is written after its code. -/
theorem encode_instruction_eq {mnemonic : String} {code : Nat} {op : Operation}
    {placed : List PlacedOperand} {head : List UInt8} {parts : List (List UInt8)}
    (hop : d.encoding? mnemonic = some (code, op)) (hkinds : placed.map (·.kind) = op.operands)
    (hhead : Bytes.ofUInt? code d.opcodeWidth = .ok head)
    (hparts : List.Forall₂ (fun p bs => Bytes.ofUInt? p.value (d.operandWidth p.kind) = .ok bs)
      placed parts) :
    Encode.instruction d mnemonic ((placed.map (·.value)).map fun (n : Nat) => (n : Int)) =
      .ok (head ++ parts.flatten) := by
  refine Encode.instruction_eq_ok.mpr ⟨code, op, head, parts, {
    encoding := hop
    count := by rw [List.length_map, List.length_map, ← hkinds, List.length_map]
    head := hhead
    parts := ?_ }, rfl⟩
  rw [← hkinds, List.map_map, List.zip_map']
  exact List.forall₂_map_left_iff.mpr hparts

/-- **One instruction.** It is one of the dialect's with operands in range, it does not go past the
end of the code, and it is written as the bytes it was read from. -/
theorem instruction_through {c c' : Cursor} {p : Placed} (hc : c.Valid)
    (h : (instruction d locals pool start codeEnd).runFrom c = (.ok p, c')) :
    ∃ bs, c.Through bs c' ∧ c'.offset ≤ codeEnd ∧ p.1.offset = c.offset - start ∧
      ReadAs d locals pool p bs := by
  obtain ⟨_, _, hoff, h⟩ := runFrom_bind_ok h
  cases hoff
  obtain ⟨code, c₁, hcode, h⟩ := runFrom_bind_ok h
  obtain ⟨head, hthrough, hlen, hn, hbound⟩ := Reading.uint_ok hc hcode
  have hend : c₁.offset ≤ codeEnd := by
    unfold Cursor.bound at hbound
    simp only at hbound
    omega
  split at h
  · cases h
  rename_i op hop
  obtain ⟨placed, c₂, hplaced, h⟩ := runFrom_bind_ok h
  obtain ⟨_, _, hoff, h⟩ := runFrom_bind_ok h
  cases hoff
  cases h
  obtain ⟨parts, hthrough', hend', hkinds, hfaults, hparts⟩ :=
    operands_through (hthrough.valid hc) hend hplaced
  have hpos : 0 < head.length := by
    have := d.widths.opcode.bytes_pos
    unfold Dialect.opcodeWidth at hlen
    omega
  have hzip : op.operands.zip (placed.map (·.value)) = placed.map fun p => (p.kind, p.value) := by
    rw [← hkinds, List.zip_map', List.map_inj_left]
    exact fun _ _ => rfl
  refine ⟨head ++ parts.flatten, hthrough.trans hthrough', hend', rfl, ?_⟩
  refine ⟨⟨⟨op, hop, rfl, rfl, rfl, rfl⟩, ?_, ?_⟩, ?_, ?_, hkinds, rfl, ?_⟩
  · simp only [List.length_map]
    rw [← hkinds, List.length_map]
  · intro o ho
    simp only [hzip] at ho
    obtain ⟨q, hq, rfl⟩ := List.mem_map.mp ho
    exact hfaults q hq
  · have h1 := hthrough.offset
    have h2 := hthrough'.offset
    simp only [List.length_append]
    omega
  · rw [List.length_append]
    omega
  · intro hd
    have hhead : Bytes.ofUInt? code d.opcodeWidth = .ok head := by
      rw [← hn]
      exact Bytes.ofUInt?_toNat hlen
    exact encode_instruction_eq (hd.encoding? hop) hkinds hhead hparts

/-! ## Reading a stream -/

/-- **A stream.** The instructions of a stream are those read before and further ones, which tile
the code from the cursor to a place at or beyond `stop`, but not past the end. -/
theorem instructions_through {stop fuel : Nat} {done placed : List Placed} {c : Cursor}
    (hc : c.Valid) (hstart : start ≤ c.offset) (hend : c.offset ≤ codeEnd)
    (hfuel : c.rest.length < fuel)
    (h : instructions d locals pool start codeEnd stop fuel done c = .ok placed) :
    ∃ c' new parts, c.Through parts.flatten c' ∧ stop ≤ c'.offset ∧ c'.offset ≤ codeEnd ∧
      placed = done.reverse ++ new ∧ List.Forall₂ (ReadAs d locals pool) new parts ∧
      Tiles (c.offset - start) (new.map (·.1)) (c'.offset - start) := by
  induction fuel generalizing done c with
  | zero => omega
  | succ fuel ih =>
    unfold instructions at h
    split at h
    · rename_i hstop
      cases h
      exact ⟨c, [], [], .refl c, hstop, hend, (List.append_nil _).symm, .nil, .nil _⟩
    · split at h
      · rename_i p c₁ hrun
        obtain ⟨bs, hthrough, hend', hoff, hread⟩ := instruction_through hc hrun
        have hpos := hread.size_pos
        have hrest := congrArg List.length hthrough.rest
        have hoff₁ := hthrough.offset
        rw [List.length_append] at hrest
        obtain ⟨c', new, parts, hthrough', hstop, hend'', hplaced, hparts, htiles⟩ :=
          ih (hthrough.valid hc) (by omega) hend' (by omega) h
        refine ⟨c', p :: new, bs :: parts, hthrough.trans hthrough', hstop, hend'', ?_,
          .cons hread hparts, ?_⟩
        · rw [hplaced, List.reverse_cons, List.append_assoc, List.singleton_append]
        · refine .cons hoff (by rw [hread.size]; exact hpos) ?_
          have hnext : c.offset - start + p.1.size = c₁.offset - start := by
            rw [hread.size]
            omega
          rw [hnext]
          exact htiles
      · cases h

/-- A stream without a stray jump has none. -/
theorem strayJump?_eq_none {boundaries : List Nat} {placed : List Placed}
    (h : strayJump? boundaries placed = none) {p : Placed} (hp : p ∈ placed) {o : PlacedOperand}
    (ho : o ∈ p.2) (hkind : o.kind = .jump) : o.value ∈ boundaries := by
  obtain ⟨index, hindex, rfl⟩ := List.mem_iff_getElem.mp hp
  unfold strayJump? at h
  rw [List.findSome?_eq_none_iff] at h
  have hnone := h (placed[index], index)
    (List.mk_mem_zipIdx_iff_getElem?.mpr (List.getElem?_eq_getElem hindex))
  simp only [Option.map_eq_none_iff, List.find?_eq_none] at hnone
  have := hnone o ho
  simpa [hkind] using this

/-- The instructions of a stream are written as the bytes they were read from. -/
theorem encode_instructions_eq (hd : d.Regular) {placed : List Placed} {parts : List (List UInt8)}
    (h : List.Forall₂ (ReadAs d locals pool) placed parts) :
    Encode.instructions d (placed.map (·.1)) = .ok parts.flatten := by
  have hparts : (placed.map (·.1)).mapM (fun (i : Instruction) =>
      Encode.instruction d i.mnemonic (i.operands.map fun (n : Nat) => (n : Int))) = .ok parts := by
    rw [Outcome.mapM_eq_ok, List.forall₂_map_left_iff]
    exact h.imp fun _ _ hread => hread.written hd
  exact Outcome.bind_eq_ok.mpr ⟨parts, hparts, rfl⟩

/-- **The code of a function.** Code that is decoded to its end lies within the bytes, its
instructions tile it, and they are written as the bytes they were read from. -/
theorem code_ok {c : Cursor} {length : Nat} {is : List Instruction} (hc : c.Valid)
    (h : code d locals pool {} c length = .ok is) :
    Decoded d locals pool length is ∧ length ≤ c.rest.length ∧
      (d.Regular → Encode.instructions d is = .ok (c.rest.take length)) := by
  unfold code at h
  dsimp only at h
  split at h
  · cases h
  rename_i placed hplaced
  obtain ⟨c', new, parts, hthrough, hstop, hend, rfl, hread, htiles⟩ :=
    instructions_through hc (Nat.le_refl _) (Nat.le_add_right _ _) (Nat.lt_succ_self _) hplaced
  split at h
  · rename_i hbounded
    simp at hbounded
  split at h
  · cases h
  rename_i hjumps
  cases h
  have hlen : parts.flatten.length = length := by
    have := hthrough.offset
    omega
  have hrest := hthrough.rest
  have hall : ∀ p ∈ placed, ∃ bs, ReadAs d locals pool p bs :=
    ((List.forall₂_and_left placed parts).mp (hread.imp fun _ bs hp => ⟨⟨bs, hp⟩, hp⟩)).1
  refine ⟨⟨?_, ?_, ?_⟩, ?_, ?_⟩
  · have h0 : c.offset - c.offset = 0 := Nat.sub_self _
    have h1 : c'.offset - c.offset = length := by omega
    rwa [h0, h1] at htiles
  · intro i hi
    obtain ⟨p, hp, rfl⟩ := List.mem_map.mp hi
    obtain ⟨bs, hbs⟩ := hall p hp
    exact hbs.conforms
  · intro i hi t ht
    obtain ⟨p, hp, rfl⟩ := List.mem_map.mp hi
    obtain ⟨bs, hbs⟩ := hall p hp
    rw [← hbs.kinds, ← hbs.operands, List.zip_map', List.mem_map] at ht
    obtain ⟨o, ho, heq⟩ := ht
    obtain ⟨hkind, hvalue⟩ := Prod.mk.inj heq
    have hmem := strayJump?_eq_none hjumps hp ho hkind
    rw [hvalue, List.mem_cons, List.mem_map] at hmem
    exact hmem
  · rw [hrest, List.length_append]
    omega
  · intro hd
    rw [encode_instructions_eq hd hread, hrest, ← hlen, List.take_left]

end Decode

end Unscript
