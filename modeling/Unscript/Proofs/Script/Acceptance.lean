import Unscript.Proofs.Registry.Concrete
import Unscript.Proofs.Script.Commands

/-!
# Which code is decoded

Code is decoded exactly when it is a row of commands in range whose jumps lead to commands or to the
end. The commands are then the only ones that are written as these bytes. Otherwise decoding stops
at the first field that is no part of such a row, or, when only jumps are at fault, at the first
jump that leads elsewhere.

* `Legible`: the commands of which a code consists.
* `Defect`: the first field of an instruction that cannot be read or is out of range.
* `StrayOperand`: the first jump of an instruction that leads elsewhere.
* `CodeFailure`: where code that is not legible fails, and what stands before.

Results:
* `Decode.exists_code_eq_ok`, `Decode.exists_stream_of_code`: legible code is decoded, and no other
  is.
* `Decode.code_failure`: where decoding stops.
* `Decode.code_spec`: which code is decoded, as what, and where it fails otherwise.
-/

namespace Unscript

open Reading (Frames runFrom_bind_ok)

/-- Whether a jump may lead to an offset: a command starts there, or the code ends. -/
def Command.Lands (d : Dialect) (cs : List Command) (length t : Nat) : Prop :=
  t ∈ Command.starts d 0 cs ∨ t = length

/-- Whether all jumps of some commands lead to where a jump may lead. -/
def Command.Land (d : Dialect) (lands : Nat → Prop) (cs : List Command) : Prop :=
  ∀ c ∈ cs, ∀ t, (OperandKind.jump, t) ∈ (c.kinds d).zip c.operands → lands t

/-- The command of an instruction with operands in range has operands in range. -/
theorem Instruction.Conforms.inRange_command {d : Dialect} (hd : d.Regular) {locals : Nat}
    {pool : List Constant} {i : Instruction} (h : i.Conforms d locals pool) :
    i.command.InRange d locals pool := by
  obtain ⟨op, hop, hmnemonic, hkinds, -⟩ := h.operation
  have hc : i.command.kinds d = i.kinds := by
    unfold Command.kinds Instruction.command
    rw [hmnemonic, hd.encoding? hop, hkinds]
    rfl
  unfold Command.InRange
  rw [hc]
  exact fun o ho => Decode.operandFault?_eq_none.mp (h.inRange o ho)

/-- The commands of which a code consists. -/
structure Legible (d : Dialect) (locals : Nat) (pool : List Constant) (cs : List Command)
    (code : List UInt8) : Prop extends Spells d locals pool cs code where
  jumps : Command.Land d (Command.Lands d cs code.length) cs

instance (d : Dialect) (cs : List Command) (length t : Nat) :
    Decidable (Command.Lands d cs length t) :=
  inferInstanceAs (Decidable (t ∈ Command.starts d 0 cs ∨ t = length))

instance (d : Dialect) (lands : Nat → Prop) [DecidablePred lands] (cs : List Command) :
    Decidable (Command.Land d lands cs) :=
  decidable_of_iff (∀ c ∈ cs, ∀ o ∈ (c.kinds d).zip c.operands, o.1 = .jump → lands o.2)
    ⟨fun h c hc _ ht => h c hc _ ht rfl, fun h c hc o ho hjump => h c hc o.2 (hjump ▸ ho)⟩

instance (d : Dialect) (locals : Nat) (pool : List Constant) (cs : List Command)
    (code : List UInt8) : Decidable (Legible d locals pool cs code) :=
  decidable_of_iff
    (Spells d locals pool cs code ∧ Command.Land d (Command.Lands d cs code.length) cs)
    ⟨fun h => ⟨h.1, h.2⟩, fun h => ⟨h.toSpells, h.jumps⟩⟩

/-! ## Faults -/

/-- The first operand, among bytes that start with operands of some kinds, that is cut off or out of
range. -/
inductive BadOperand (d : Dialect) (locals : Nat) (pool : List Constant) :
    List OperandKind → List UInt8 → Nat → Prop where
  | here {kind : OperandKind} {kinds : List OperandKind} {bs : List UInt8}
      (h : bs.length < d.operandWidth kind ∨
        ¬ kind.InRange d locals pool (Bytes.toNat (bs.take (d.operandWidth kind)))) :
      BadOperand d locals pool (kind :: kinds) bs 0
  | later {kind : OperandKind} {kinds : List OperandKind} {bs : List UInt8} {n : Nat}
      (hlen : d.operandWidth kind ≤ bs.length)
      (hrange : kind.InRange d locals pool (Bytes.toNat (bs.take (d.operandWidth kind))))
      (h : BadOperand d locals pool kinds (bs.drop (d.operandWidth kind)) n) :
      BadOperand d locals pool (kind :: kinds) bs (d.operandWidth kind + n)

/-- The first field, among bytes that start with an instruction, that cannot be read or is out of
range: the opcode or an operand. -/
inductive Defect (d : Dialect) (locals : Nat) (pool : List Constant) (bs : List UInt8) :
    Nat → Prop where
  | opcode (h : bs.length < d.opcodeWidth ∨
      d.operationAt? (Bytes.toNat (bs.take d.opcodeWidth)) = none) : Defect d locals pool bs 0
  | operand {op : Operation} {n : Nat} (hlen : d.opcodeWidth ≤ bs.length)
      (hop : d.operationAt? (Bytes.toNat (bs.take d.opcodeWidth)) = some op)
      (h : BadOperand d locals pool op.operands (bs.drop d.opcodeWidth) n) :
      Defect d locals pool bs (d.opcodeWidth + n)

/-- The first jump, among operands of some kinds, that leads elsewhere. -/
inductive StrayOperand (d : Dialect) (lands : Nat → Prop) :
    List OperandKind → List Nat → Nat → Prop where
  | here {kinds : List OperandKind} {t : Nat} {values : List Nat} (h : ¬ lands t) :
      StrayOperand d lands (.jump :: kinds) (t :: values) 0
  | later {kind : OperandKind} {kinds : List OperandKind} {value : Nat} {values : List Nat} {n : Nat}
      (hlands : kind = .jump → lands value) (h : StrayOperand d lands kinds values n) :
      StrayOperand d lands (kind :: kinds) (value :: values) (d.operandWidth kind + n)

/-- Where a code of some length fails, of which the bytes `code` are there, and the instructions
before: at a field of the first instruction that cannot be read, or else at the first jump that
leads elsewhere. -/
inductive CodeFailure (d : Dialect) (locals : Nat) (pool : List Constant) (length : Nat)
    (code : List UInt8) (before : List Instruction) : Nat → Prop where
  | field {read rest : List UInt8} {n : Nat} (hcode : code = read ++ rest)
      (hbefore : Spells d locals pool (before.map (·.command)) read)
      (htiles : Tiles 0 before read.length) (hlt : read.length < length)
      (h : Defect d locals pool rest n) :
      CodeFailure d locals pool length code before (read.length + n)
  | jump {read : List UInt8} {c : Command} {after : List Command} {n : Nat}
      (hlength : code.length = length)
      (hcode : Spells d locals pool (before.map (·.command) ++ c :: after) code)
      (hbefore : Spells d locals pool (before.map (·.command)) read)
      (htiles : Tiles 0 before read.length)
      (hlands : Command.Land d (Command.Lands d (before.map (·.command) ++ c :: after) length)
        (before.map (·.command)))
      (h : StrayOperand d (Command.Lands d (before.map (·.command) ++ c :: after) length)
        (c.kinds d) c.operands n) :
      CodeFailure d locals pool length code before (read.length + (d.opcodeWidth + n))

namespace Decode

variable {d : Dialect} {locals start codeEnd o : Nat} {pool : List Constant}

/-! ## Fields that cannot be read -/

/-- The bytes of the code ahead of a place. -/
def ahead (codeEnd : Nat) (c : Cursor) : List UInt8 :=
  c.rest.take (codeEnd - c.offset)

theorem length_ahead (c : Cursor) :
    (ahead codeEnd c).length = min (codeEnd - c.offset) c.rest.length :=
  List.length_take

theorem take_ahead {c : Cursor} {n : Nat} (h : n ≤ (ahead codeEnd c).length) :
    (ahead codeEnd c).take n = c.rest.take n := by
  rw [length_ahead] at h
  unfold ahead
  rw [List.take_take, Nat.min_eq_left (by omega)]

theorem ahead_advance (c : Cursor) (n : Nat) :
    ahead codeEnd (c.advance n) = (ahead codeEnd c).drop n := by
  unfold ahead Cursor.advance
  rw [List.drop_take, Nat.sub_sub]

/-- A number of the code is read if it stands in the code ahead. -/
theorem runFrom_uint {width : Nat} {field : String} {c : Cursor} (hc : c.Valid)
    (hend : c.offset ≤ codeEnd) :
    (Reading.uint width field (some (codeEnd : Int))).runFrom c =
      if (ahead codeEnd c).length < width then (.error ⟨.truncated field, c.offset⟩, c)
      else (.ok (Bytes.toNat ((ahead codeEnd c).take width)), c.advance width) := by
  have hbound : c.bound (some (codeEnd : Int)) = min (codeEnd : Int) c.limit := rfl
  have hahead : (ahead codeEnd c).length = min (codeEnd - c.offset) c.rest.length := length_ahead c
  unfold Cursor.Valid at hc
  unfold Reading.uint
  rw [Reading.runFrom_bind]
  by_cases hlt : (ahead codeEnd c).length < width
  · rw [if_pos hlt, Reading.runFrom_take_of_lt _ (by omega) (by omega)]
  · have hthrough := Cursor.through_advance (c := c) (n := width) (by omega)
    have hlen : (c.rest.take width).length = width := by rw [List.length_take]; omega
    have hoff := hthrough.offset
    rw [if_neg hlt, take_ahead (by omega), Reading.runFrom_take hthrough (by omega) (by omega)]
    rfl

/-- An operand is read if it stands in the code ahead and is in range. -/
theorem runFrom_operand {mnemonic : String} {kind : OperandKind} {c : Cursor} (hc : c.Valid)
    (hend : c.offset ≤ codeEnd) :
    (operand d locals pool mnemonic codeEnd kind).runFrom c =
      if (ahead codeEnd c).length < d.operandWidth kind then
        (.error ⟨.truncated s!"{kind.text} operand of {mnemonic}", c.offset⟩, c)
      else
        let value := Bytes.toNat ((ahead codeEnd c).take (d.operandWidth kind))
        match operandFault? d locals pool kind value with
        | some fault => (.error ⟨fault, c.offset⟩, c.advance (d.operandWidth kind))
        | none => (.ok ⟨kind, value, c.offset⟩, c.advance (d.operandWidth kind)) := by
  have hoff : Reading.offset.runFrom c = (.ok c.offset, c) := rfl
  unfold operand
  rw [Reading.runFrom_bind, hoff]
  dsimp only
  rw [Reading.runFrom_bind, runFrom_uint hc hend]
  by_cases hlt : (ahead codeEnd c).length < d.operandWidth kind
  · rw [if_pos hlt, if_pos hlt]
  · rw [if_neg hlt, if_neg hlt]
    dsimp only
    cases operandFault? d locals pool kind
      (Bytes.toNat ((ahead codeEnd c).take (d.operandWidth kind))) <;> rfl

theorem valid_advance {c : Cursor} {n : Nat} (hc : c.Valid) (h : n ≤ (ahead codeEnd c).length) :
    (c.advance n).Valid ∧ (c.advance n).offset = c.offset + n ∧
      (c.offset ≤ codeEnd → (c.advance n).offset ≤ codeEnd) := by
  rw [length_ahead] at h
  exact ⟨(Cursor.through_advance (by omega)).valid hc, rfl, fun hend => by
    show c.offset + n ≤ codeEnd
    omega⟩

/-- Operands that are not read have a first one that is cut off or out of range. -/
theorem operands_error {mnemonic : String} {kinds : List OperandKind} {c c' : Cursor}
    {e : DecodeError} (hc : c.Valid) (hend : c.offset ≤ codeEnd)
    (h : (kinds.mapM (operand d locals pool mnemonic codeEnd)).runFrom c = (.error e, c')) :
    ∃ n, e.offset = c.offset + n ∧ BadOperand d locals pool kinds (ahead codeEnd c) n := by
  induction kinds generalizing c c' with
  | nil => cases h
  | cons kind kinds ih =>
    rw [List.mapM_cons, Reading.runFrom_bind, runFrom_operand hc hend] at h
    by_cases hlt : (ahead codeEnd c).length < d.operandWidth kind
    · rw [if_pos hlt] at h
      cases h
      exact ⟨0, rfl, .here (Or.inl hlt)⟩
    · rw [if_neg hlt] at h
      dsimp only at h
      cases hfault : operandFault? d locals pool kind
          (Bytes.toNat ((ahead codeEnd c).take (d.operandWidth kind))) with
      | some fault =>
        rw [hfault] at h
        cases h
        refine ⟨0, rfl, .here (Or.inr fun hrange => ?_)⟩
        rw [operandFault?_eq_none.mpr hrange] at hfault
        cases hfault
      | none =>
        rw [hfault] at h
        dsimp only at h
        obtain ⟨hc₁, hoff₁, hend₁⟩ := valid_advance hc (Nat.not_lt.mp hlt)
        rw [Reading.runFrom_bind] at h
        split at h
        · cases h
        · rename_i hrest
          cases h
          obtain ⟨n, hoff, hbad⟩ := ih hc₁ (hend₁ hend) hrest
          rw [ahead_advance] at hbad
          exact ⟨_, by rw [hoff, hoff₁, Nat.add_assoc], .later (Nat.not_lt.mp hlt)
            (operandFault?_eq_none.mp hfault) hbad⟩

/-- **An instruction that is not read** has a first field that cannot be read or is out of range. -/
theorem instruction_error {c c' : Cursor} {e : DecodeError} (hc : c.Valid) (hend : c.offset ≤ codeEnd)
    (h : (instruction d locals pool start codeEnd).runFrom c = (.error e, c')) :
    ∃ n, e.offset = c.offset + n ∧ Defect d locals pool (ahead codeEnd c) n := by
  have hoff : Reading.offset.runFrom c = (.ok c.offset, c) := rfl
  unfold instruction at h
  rw [Reading.runFrom_bind, hoff] at h
  dsimp only at h
  rw [Reading.runFrom_bind, runFrom_uint hc hend] at h
  by_cases hlt : (ahead codeEnd c).length < d.opcodeWidth
  · rw [if_pos hlt] at h
    cases h
    exact ⟨0, rfl, .opcode (Or.inl hlt)⟩
  · rw [if_neg hlt] at h
    dsimp only at h
    cases hop : d.operationAt? (Bytes.toNat ((ahead codeEnd c).take d.opcodeWidth)) with
    | none =>
      rw [hop] at h
      cases h
      exact ⟨0, rfl, .opcode (Or.inr hop)⟩
    | some op =>
      rw [hop] at h
      dsimp only at h
      obtain ⟨hc₁, hoff₁, hend₁⟩ := valid_advance hc (Nat.not_lt.mp hlt)
      rw [Reading.runFrom_bind] at h
      split at h
      · cases h
      · rename_i hrest
        cases h
        obtain ⟨n, hoff, hbad⟩ := operands_error hc₁ (hend₁ hend) hrest
        rw [ahead_advance] at hbad
        exact ⟨_, by rw [hoff, hoff₁, Nat.add_assoc], .operand (Nat.not_lt.mp hlt) hop hbad⟩

/-! ## Where a stream stops -/

/-- A stream that is not read to its end is read up to an instruction that is not read. -/
theorem instructions_error {stop fuel : Nat} {done : List Placed} {c : Cursor} {e : CodeError}
    (hc : c.Valid) (hstart : start ≤ c.offset) (hend : c.offset ≤ codeEnd)
    (hfuel : c.rest.length < fuel)
    (h : instructions d locals pool start codeEnd stop fuel done c = .error e) :
    ∃ c' new parts, c.Through parts.flatten c' ∧ List.Forall₂ (ReadAs d locals pool) new parts ∧
      Tiles (c.offset - start) (new.map (·.1)) (c'.offset - start) ∧ c'.offset < stop ∧
      e.before = (done.reverse ++ new).map (·.1) ∧
      ∃ n, e.error.offset = c'.offset + n ∧ Defect d locals pool (ahead codeEnd c') n := by
  induction fuel generalizing done c with
  | zero => omega
  | succ fuel ih =>
    unfold instructions at h
    split at h
    · cases h
    · rename_i hstop
      split at h
      · rename_i p c₁ hrun
        obtain ⟨bs, hthrough, hend', hoff, hread⟩ := instruction_through hc hrun
        have hpos := hread.size_pos
        have hsize := hread.size
        have hoff₁ := hthrough.offset
        have hrest := congrArg List.length hthrough.rest
        rw [List.length_append] at hrest
        obtain ⟨c', new, parts, hthrough', hparts, htiles, hlt, hbefore, hdefect⟩ :=
          ih (hthrough.valid hc) (by omega) hend' (by omega) h
        have hnext : c₁.offset - start = c.offset - start + p.1.size := by omega
        have hone : 0 < p.1.size := by omega
        rw [hnext] at htiles
        refine ⟨c', p :: new, bs :: parts, hthrough.trans hthrough', .cons hread hparts,
          .cons hoff hone htiles, hlt, ?_, hdefect⟩
        rw [hbefore, List.reverse_cons, List.append_assoc, List.singleton_append]
      · rename_i hrun
        cases h
        exact ⟨c, [], [], .refl c, .nil, .nil _, by omega, by rw [List.append_nil],
          instruction_error hc hend hrun⟩

/-- What is read is in range, and written as the bytes it was read from. -/
theorem spells_of_readAs (hd : d.Regular) {placed : List Placed} {parts : List (List UInt8)}
    (h : List.Forall₂ (ReadAs d locals pool) placed parts) :
    Spells d locals pool ((placed.map (·.1)).map (·.command)) parts.flatten := by
  refine ⟨?_, ?_⟩
  · have hwritten := encode_instructions_eq hd h
    unfold Encode.instructions at hwritten
    unfold Command.encodeAll?
    rw [List.mapM_map]
    exact hwritten
  · intro c hc
    obtain ⟨i, hi, rfl⟩ := List.mem_map.mp hc
    obtain ⟨p, hp, rfl⟩ := List.mem_map.mp hi
    have hall := ((List.forall₂_and_left placed parts).mp
      (h.imp fun p bs hp => ⟨hp.conforms.inRange_command hd, hp⟩)).1
    exact hall p hp

/-! ## Jumps -/

variable {boundaries : List Nat} {kinds : List OperandKind} {values : List Nat}

/-- Whether an operand is a jump to an offset that is no boundary. -/
def strays (boundaries : List Nat) (o : PlacedOperand) : Bool :=
  o.kind == .jump && !boundaries.contains o.value

/-- Without a stray jump, all jumps lead to boundaries. -/
theorem find?_placeOperands_eq_none :
    (placeOperands d o kinds values).find? (strays boundaries) = none ↔
      ∀ t, (OperandKind.jump, t) ∈ kinds.zip values → t ∈ boundaries := by
  induction kinds generalizing values o with
  | nil => simp [placeOperands]
  | cons kind kinds ih =>
    cases values with
    | nil => simp [placeOperands]
    | cons value values =>
      unfold placeOperands
      rw [List.zip_cons_cons, List.find?_cons]
      cases hstray : strays boundaries ⟨kind, value, o⟩ with
      | true =>
        simp only [strays, Bool.and_eq_true, beq_iff_eq, Bool.not_eq_true',
          ← Bool.not_eq_true, List.contains_iff_mem] at hstray
        obtain ⟨rfl, hout⟩ := hstray
        refine iff_of_false (by simp) fun h => hout (h value List.mem_cons_self)
      | false =>
        simp only [strays, Bool.and_eq_false_iff, beq_eq_false_iff_ne, Bool.not_eq_false',
          List.contains_iff_mem] at hstray
        rw [ih]
        refine ⟨fun h t ht => ?_, fun h t ht => h t (List.mem_cons_of_mem _ ht)⟩
        rcases List.mem_cons.mp ht with heq | ht
        · cases heq
          exact hstray.resolve_left (absurd rfl)
        · exact h t ht

/-- A stray jump is the first one of its instruction. -/
theorem stray_of_find? {q : PlacedOperand}
    (h : (placeOperands d o kinds values).find? (strays boundaries) = some q) :
    ∃ n, q.position = o + n ∧ StrayOperand d (· ∈ boundaries) kinds values n := by
  induction kinds generalizing values o with
  | nil => simp [placeOperands] at h
  | cons kind kinds ih =>
    cases values with
    | nil => simp [placeOperands] at h
    | cons value values =>
      unfold placeOperands at h
      rw [List.find?_cons] at h
      cases hstray : strays boundaries ⟨kind, value, o⟩ with
      | true =>
        rw [hstray] at h
        cases h
        simp only [strays, Bool.and_eq_true, beq_iff_eq, Bool.not_eq_true',
          ← Bool.not_eq_true, List.contains_iff_mem] at hstray
        obtain ⟨rfl, hout⟩ := hstray
        exact ⟨0, rfl, .here hout⟩
      | false =>
        rw [hstray] at h
        simp only [strays, Bool.and_eq_false_iff, beq_eq_false_iff_ne, Bool.not_eq_false',
          List.contains_iff_mem] at hstray
        obtain ⟨n, hpos, hrest⟩ := ih h
        exact ⟨_, by rw [hpos, Nat.add_assoc],
          .later (fun hjump => hstray.resolve_left (absurd hjump)) hrest⟩

/-- A stream without stray jumps. -/
theorem strayJump?_eq_none_iff {placed : List Placed} :
    strayJump? boundaries placed = none ↔ ∀ p ∈ placed, p.2.find? (strays boundaries) = none := by
  constructor
  · intro h p hp
    rw [List.find?_eq_none]
    intro q hq hstray
    simp only [strays, Bool.and_eq_true, beq_iff_eq, Bool.not_eq_true',
      ← Bool.not_eq_true, List.contains_iff_mem] at hstray
    exact hstray.2 (strayJump?_eq_none h hp hq hstray.1)
  · intro h
    unfold strayJump?
    rw [List.findSome?_eq_none_iff]
    rintro ⟨p, i⟩ hp
    exact Option.map_eq_none_iff.mpr (h p (List.fst_mem_of_mem_zipIdx hp))

/-- The stray jump of a stream and the instructions before it, none of which strays. -/
theorem exists_of_strayJump? {placed : List Placed} {index : Nat} {q : PlacedOperand}
    (h : strayJump? boundaries placed = some (index, q)) :
    ∃ before p after, placed = before ++ p :: after ∧ before.length = index ∧
      (∀ p ∈ before, p.2.find? (strays boundaries) = none) ∧
      p.2.find? (strays boundaries) = some q := by
  unfold strayJump? at h
  obtain ⟨first, ⟨p, i⟩, rest, hzip, hfound, hfirst⟩ := List.findSome?_eq_some_iff.mp h
  obtain ⟨r, hp, hpair⟩ := Option.map_eq_some_iff.mp hfound
  cases hpair
  obtain ⟨before, tail, rfl, rfl, hrest⟩ := List.zipIdx_eq_append_iff.mp hzip
  obtain ⟨p', after, rfl, hpair, -⟩ := List.zipIdx_eq_cons_iff.mp hrest.symm
  cases hpair
  refine ⟨before, p, after, rfl, (Nat.zero_add _).symm, fun x hx => ?_, hp⟩
  obtain ⟨j, hj⟩ := List.mem_iff_getElem?.mp hx
  exact Option.map_eq_none_iff.mp (hfirst (x, 0 + j) (List.mk_add_mem_zipIdx_iff_getElem?.mpr hj))

namespace Stream

variable {cs : List Command} {ps : List Placed} {bs : List UInt8}

/-- No jump of a stream strays if all its jumps lead to boundaries. -/
theorem land_iff (h : Stream d locals pool start codeEnd o cs ps bs) :
    (∀ p ∈ ps, p.2.find? (strays boundaries) = none) ↔ Command.Land d (· ∈ boundaries) cs := by
  induction h with
  | nil => simp [Command.Land]
  | cons _ _ _ hread _ ih =>
    unfold Command.Land at ih ⊢
    rw [List.forall_mem_cons, List.forall_mem_cons, ih, hread.operands,
      find?_placeOperands_eq_none]

/-- The code of a stream is decoded unless a jump strays. -/
theorem code_eq {c c' : Cursor} (hc : c.Valid)
    (h : Stream d locals pool c.offset (c.offset + bs.length) c.offset cs ps bs)
    (hthrough : c.Through bs c') :
    code d locals pool {} c bs.length =
      match strayJump? (bs.length :: Command.starts d 0 cs) ps with
      | some (index, q) => .error ⟨⟨.jumpTarget q.value, q.position⟩, (ps.map (·.1)).take index⟩
      | none => .ok (ps.map (·.1)) := by
  have hrun := h.instructions_eq [] hc rfl hthrough (Nat.lt_succ_self _)
  have hoffsets := h.map_offset (Nat.le_refl _)
  rw [hthrough.offset, List.reverse_nil, List.nil_append] at hrun
  rw [Nat.sub_self] at hoffsets
  unfold code
  dsimp only
  rw [hrun]
  simp only [Option.isSome_none, Bool.false_and, hoffsets]
  rfl

end Stream

/-! ## The code of a function -/

/-- Code fails where its stream does. -/
theorem code_of_instructions_error {c : Cursor} {length : Nat} {e : CodeError}
    (h : instructions d locals pool c.offset (c.offset + length) (c.offset + length)
      (c.rest.length + 1) [] c = .error e) : code d locals pool {} c length = .error e := by
  unfold code
  dsimp only
  rw [h]

theorem lands_eq {cs : List Command} {length : Nat} :
    Command.Lands d cs length = (· ∈ length :: Command.starts d 0 cs) := by
  funext t
  rw [List.mem_cons, or_comm]
  rfl

/-- **Legible code** is decoded, as its commands. -/
theorem exists_code_eq_ok {c c' : Cursor} {cs : List Command} {bs : List UInt8} (hc : c.Valid)
    (h : Legible d locals pool cs bs) (hthrough : c.Through bs c') :
    ∃ ps, Stream d locals pool c.offset (c.offset + bs.length) c.offset cs ps bs ∧
      code d locals pool {} c bs.length = .ok (ps.map (·.1)) := by
  obtain ⟨ps, hstream⟩ := exists_stream c.offset h.toSpells (Nat.le_refl _)
  have hland := h.jumps
  rw [lands_eq] at hland
  refine ⟨ps, hstream, ?_⟩
  rw [hstream.code_eq hc hthrough, strayJump?_eq_none_iff.mpr (hstream.land_iff.mpr hland)]

/-- A code consists of no other commands. -/
theorem legible_unique {cs cs' : List Command} {bs : List UInt8}
    (h : Legible d locals pool cs bs) (h' : Legible d locals pool cs' bs) : cs = cs' := by
  have hthrough := Cursor.through_advance (c := Cursor.ofBytes bs) (Nat.le_refl bs.length)
  rw [show (Cursor.ofBytes bs).rest.take bs.length = bs from List.take_length] at hthrough
  obtain ⟨ps, hstream, hcode⟩ := exists_code_eq_ok (Cursor.valid_ofBytes bs) h hthrough
  obtain ⟨ps', hstream', hcode'⟩ := exists_code_eq_ok (Cursor.valid_ofBytes bs) h' hthrough
  rw [← hstream.map_command, ← hstream'.map_command, Except.ok.inj (hcode.symm.trans hcode')]

/-- A stream that is read to its end is that of its commands. -/
theorem exists_stream_of_instructions (hd : d.Regular) {c : Cursor} {length : Nat}
    {placed : List Placed} (hc : c.Valid)
    (h : instructions d locals pool c.offset (c.offset + length) (c.offset + length)
      (c.rest.length + 1) [] c = .ok placed) :
    ∃ bs c', c.Through bs c' ∧ bs.length = length ∧
      Stream d locals pool c.offset (c.offset + length) c.offset
        ((placed.map (·.1)).map (·.command)) placed bs := by
  obtain ⟨c', new, parts, hthrough, hstop, hend, hplaced, hparts, -⟩ :=
    instructions_through hc (Nat.le_refl _) (Nat.le_add_right _ _) (Nat.lt_succ_self _) h
  rw [List.reverse_nil, List.nil_append] at hplaced
  subst hplaced
  have hoff := hthrough.offset
  have hlen : parts.flatten.length = length := by omega
  have hend : c.offset + parts.flatten.length ≤ c.offset + length := by omega
  obtain ⟨ps, hstream⟩ := exists_stream c.offset (spells_of_readAs hd hparts) hend
  have heq := hstream.instructions_eq [] hc rfl hthrough (Nat.lt_succ_self _)
  rw [hoff, hlen, h] at heq
  cases heq
  exact ⟨parts.flatten, c', hthrough, hlen, hstream⟩

/-- **Only legible code** is decoded. -/
theorem exists_stream_of_code (hd : d.Regular) {c : Cursor} {length : Nat} {is : List Instruction}
    (hc : c.Valid) (h : code d locals pool {} c length = .ok is) :
    ∃ ps bs c', c.Through bs c' ∧ bs.length = length ∧ is = ps.map (·.1) ∧
      Stream d locals pool c.offset (c.offset + length) c.offset (is.map (·.command)) ps bs ∧
      Legible d locals pool (is.map (·.command)) bs := by
  cases hrun : instructions d locals pool c.offset (c.offset + length) (c.offset + length)
      (c.rest.length + 1) [] c with
  | error e =>
    rw [code_of_instructions_error hrun] at h
    cases h
  | ok ps =>
    obtain ⟨bs, c', hthrough, rfl, hstream⟩ := exists_stream_of_instructions hd hc hrun
    rw [hstream.code_eq hc hthrough] at h
    split at h
    · cases h
    · rename_i hnone
      cases h
      refine ⟨ps, bs, c', hthrough, rfl, rfl, hstream, hstream.spells, ?_⟩
      rw [lands_eq, ← hstream.land_iff, ← strayJump?_eq_none_iff]
      exact hnone

/-- A stream with a stray jump fails there. -/
theorem Stream.failure {cs : List Command} {ps : List Placed} {bs : List UInt8} {index : Nat}
    {q : PlacedOperand} (h : Stream d locals pool o codeEnd o cs ps bs)
    (hstray : strayJump? (bs.length :: Command.starts d 0 cs) ps = some (index, q)) :
    ∃ n, q.position = o + n ∧
      CodeFailure d locals pool bs.length bs ((ps.map (·.1)).take index) n := by
  obtain ⟨before, p, after, rfl, rfl, hbefore, hp⟩ := exists_of_strayJump? hstray
  obtain ⟨cs₁, c, cs₂, bs₁, rfl, hfirst, hread⟩ := h.split
  rw [hread.operands] at hp
  obtain ⟨n, hpos, hoperand⟩ := stray_of_find? hp
  have hlands := hfirst.land_iff.mp hbefore
  have htiles := hfirst.tiles (Nat.le_refl _)
  have hcommands := hfirst.map_command
  subst hcommands
  have hkept : ((before ++ p :: after).map (·.1)).take before.length = before.map (·.1) := by
    rw [List.map_append, List.take_left' (List.length_map _)]
  rw [← lands_eq] at hlands hoperand
  rw [Nat.sub_self, Nat.zero_add] at htiles
  refine ⟨bs₁.length + (d.opcodeWidth + n), by rw [hpos]; omega, ?_⟩
  rw [hkept]
  exact .jump rfl h.spells hfirst.spells htiles hlands hoperand

/-- **Code that is not decoded** fails where it stops being legible. -/
theorem code_failure (hd : d.Regular) {c : Cursor} {length : Nat} {e : CodeError} (hc : c.Valid)
    (h : code d locals pool {} c length = .error e) :
    ∃ n, e.error.offset = c.offset + n ∧
      CodeFailure d locals pool length (c.rest.take length) e.before n := by
  cases hrun : instructions d locals pool c.offset (c.offset + length) (c.offset + length)
      (c.rest.length + 1) [] c with
  | error e' =>
    rw [code_of_instructions_error hrun] at h
    cases h
    obtain ⟨c', new, parts, hthrough, hparts, htiles, hlt, hbefore, n, hoff, hdefect⟩ :=
      instructions_error hc (Nat.le_refl _) (Nat.le_add_right _ _) (Nat.lt_succ_self _) hrun
    have hspells := spells_of_readAs hd hparts
    have hoff' := hthrough.offset
    have hread : c'.offset - c.offset = parts.flatten.length := by omega
    rw [List.reverse_nil, List.nil_append] at hbefore
    rw [Nat.sub_self, hread, ← hbefore] at htiles
    rw [← hbefore] at hspells
    refine ⟨parts.flatten.length + n, by omega, .field ?_ hspells htiles (by omega) hdefect⟩
    rw [hthrough.rest, List.take_append, List.take_of_length_le (by omega)]
    unfold ahead
    rw [hoff', Nat.add_sub_add_left]
  | ok ps =>
    obtain ⟨bs, c', hthrough, rfl, hstream⟩ := exists_stream_of_instructions hd hc hrun
    have htake : c.rest.take bs.length = bs := by rw [hthrough.rest, List.take_left]
    rw [hstream.code_eq hc hthrough] at h
    split at h
    · rename_i index q hstray
      cases h
      rw [htake]
      exact hstream.failure hstray
    · cases h

/-- **Which code is decoded.** Code is decoded exactly when it lies within the bytes and is legible.
Its commands are then unique and are the ones that are returned, as instructions that tile the code.
Otherwise decoding stops at the first field that cannot be read or is out of range, with the
instructions before the one it belongs to, or, when all fields are in order, at the first jump that
leads elsewhere. -/
theorem code_spec (hd : d.Registered) {c : Cursor} (hc : c.Valid) (locals : Nat)
    (pool : List Constant) (length : Nat) :
    ((∃ is, code d locals pool {} c length = .ok is) ↔
      length ≤ c.rest.length ∧ ∃ cs, Legible d locals pool cs (c.rest.take length)) ∧
    (∀ is, code d locals pool {} c length = .ok is → Decoded d locals pool length is ∧
      ∀ cs, Legible d locals pool cs (c.rest.take length) ↔ cs = is.map (·.command)) ∧
    ∀ e, code d locals pool {} c length = .error e →
      ∃ n, e.error.offset = c.offset + n ∧
        CodeFailure d locals pool length (c.rest.take length) e.before n := by
  have hread : ∀ {cs}, length ≤ c.rest.length → Legible d locals pool cs (c.rest.take length) →
      ∃ is, code d locals pool {} c length = .ok is := by
    intro cs hlength hlegible
    obtain ⟨ps, -, hcode⟩ := exists_code_eq_ok hc hlegible (Cursor.through_advance hlength)
    rw [List.length_take, Nat.min_eq_left hlength] at hcode
    exact ⟨_, hcode⟩
  have hlegible : ∀ {is}, code d locals pool {} c length = .ok is →
      length ≤ c.rest.length ∧ Legible d locals pool (is.map (·.command)) (c.rest.take length) := by
    intro is h
    obtain ⟨ps, bs, c', hthrough, rfl, -, -, hlegible⟩ := exists_stream_of_code hd.regular hc h
    rw [hthrough.rest, List.length_append, List.take_left]
    exact ⟨Nat.le_add_right _ _, hlegible⟩
  refine ⟨⟨fun ⟨is, h⟩ => ?_, fun ⟨hlength, cs, h⟩ => ?_⟩, fun is h => ⟨(code_ok hc h).1,
    fun cs => ⟨fun hcs => ?_, fun hcs => ?_⟩⟩, fun e h => code_failure hd.regular hc h⟩
  · exact ⟨(hlegible h).1, _, (hlegible h).2⟩
  · exact hread hlength h
  · exact legible_unique hcs (hlegible h).2
  · rw [hcs]
    exact (hlegible h).2

/-- Code of the oldest dialect that loads a constant and jumps back is legible. -/
theorem code_spec_loop :
    (Cursor.ofBytes [1, 0, 0, 39, 0, 0]).Valid ∧
      ∃ cs, Legible Registry.oldest 0 [.nil] cs [1, 0, 0, 39, 0, 0] := by
  have hc := Cursor.valid_ofBytes [1, 0, 0, 39, 0, 0]
  have hread : (code Registry.oldest 0 [.nil] {} (Cursor.ofBytes [1, 0, 0, 39, 0, 0])
      6).toOption.isSome := by decide +kernel
  obtain ⟨is, his⟩ := Option.isSome_iff_exists.mp hread
  have hcode := Outcome.toOption_eq_some.mp his
  have hspec := code_spec (Dialect.registered_of_mem Registry.oldest_mem) hc 0 [.nil] 6
  exact ⟨hc, (hspec.1.mp ⟨is, hcode⟩).2⟩

end Decode

end Unscript
