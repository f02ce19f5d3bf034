import Unscript.Proofs.Script.Code
import Unscript.Proofs.Script.Layout

/-!
# Commands

Code is written as a row of commands: mnemonics with operands. The bytes are cut into commands in
one way only, so what is decoded is what was written.

* `Command`: an instruction as it is written; `Command.encodeAll?` writes a row of them.
* `OperandKind.InRange`: the operands that a function may have.
* `Spells`: commands in range and the bytes that they are written as.
* `Decode.Stream`: commands, and the instructions that are read from their bytes at an offset.

Results:
* `Decode.instruction_frames`: a command in range is read from its bytes.
* `Decode.Stream.instructions_eq`, `Decode.Stream.instructions_cut`: a stream is read to its end, or
  to the last instruction before a cut.
* `Decode.exists_stream`: commands in range make a stream.
-/

namespace Unscript

open Reading (Framed Frames runFrom_bind_ok)

/-! ## Commands -/

/-- An instruction as it is written. -/
structure Command where
  mnemonic : String
  operands : List Nat
  deriving DecidableEq, Repr

/-- The command that an instruction is written as. -/
def Instruction.command (i : Instruction) : Command :=
  ⟨i.mnemonic, i.operands⟩

/-- The operands that a function with some locals and a pool of constants may have. -/
def OperandKind.InRange (d : Dialect) (locals : Nat) (pool : List Constant) :
    OperandKind → Nat → Prop
  | .constant, value => value < pool.length
  | .name, value => ∃ s, pool[value]? = some (.string s)
  | .slot, value => value < locals
  | .builtin, value => value < d.builtins.length
  | .argc, _ | .count, _ | .jump, _ => True

namespace Command

/-- The kinds of the operands; an unknown mnemonic has none. -/
def kinds (d : Dialect) (c : Command) : List OperandKind :=
  ((d.encoding? c.mnemonic).map (·.2.operands)).getD []

/-- The sizes of the opcode and the operands. -/
def sizes (d : Dialect) (c : Command) : List Nat :=
  d.opcodeWidth :: (c.kinds d).map d.operandWidth

/-- The count of bytes. -/
def size (d : Dialect) (c : Command) : Nat :=
  (c.sizes d).sum

/-- Writes a command. -/
def encode? (d : Dialect) (c : Command) : Except EncodeError (List UInt8) :=
  Encode.instruction d c.mnemonic (c.operands.map fun (n : Nat) => (n : Int))

/-- Writes commands one after another. -/
def encodeAll? (d : Dialect) (cs : List Command) : Except EncodeError (List UInt8) := do
  let parts ← cs.mapM (encode? d)
  pure parts.flatten

/-- The offsets at which commands start, the first at `o`. -/
def starts (d : Dialect) : Nat → List Command → List Nat
  | _, [] => []
  | o, c :: cs => o :: starts d (o + c.size d) cs

/-- Whether the operands are in range. -/
def InRange (d : Dialect) (locals : Nat) (pool : List Constant) (c : Command) : Prop :=
  ∀ o ∈ (c.kinds d).zip c.operands, o.1.InRange d locals pool o.2

theorem size_pos (d : Dialect) (c : Command) : 0 < c.size d := by
  have := d.widths.opcode.bytes_pos
  unfold size sizes Dialect.opcodeWidth
  rw [List.sum_cons]
  omega

/-- Offsets of a row of commands in two parts. -/
theorem starts_append (d : Dialect) (o : Nat) (cs cs' : List Command) :
    starts d o (cs ++ cs') = starts d o cs ++ starts d (o + (cs.map (size d)).sum) cs' := by
  induction cs generalizing o with
  | nil => rfl
  | cons c cs ih =>
    rw [List.cons_append, starts, starts, ih, List.map_cons, List.sum_cons, Nat.add_assoc]
    rfl

theorem kinds_eq {d : Dialect} {c : Command} {code : Nat} {op : Operation}
    (h : d.encoding? c.mnemonic = some (code, op)) : c.kinds d = op.operands := by
  unfold kinds
  rw [h]
  rfl

end Command

/-! ## Writing a command -/

/-- A command takes as many bytes as its size says. -/
theorem Command.length_of_encode? {d : Dialect} {c : Command} {bs : List UInt8}
    (h : c.encode? d = .ok bs) : bs.length = c.size d := by
  obtain ⟨code, op, head, parts, hfields, rfl⟩ := Encode.instruction_eq_ok.mp h
  have hhead := (Bytes.toNat_of_ofUInt? hfields.head).1
  have hwidths : parts.map List.length = op.operands.map d.operandWidth := by
    calc parts.map List.length
        = (op.operands.zip (c.operands.map fun (n : Nat) => (n : Int))).map
            (fun o => d.operandWidth o.1) :=
          Outcome.map_eq_of_forall₂ hfields.parts fun h => by
            rw [(Bytes.ofUInt?_eq_ok.mp h).2.2, Bytes.length_ofNat]
      _ = op.operands.map d.operandWidth := by
          rw [← Function.comp_def d.operandWidth, ← List.map_map,
            List.map_fst_zip (Nat.le_of_eq hfields.count.symm)]
  rw [List.length_append, List.length_flatten, hwidths, Command.size, Command.sizes,
    Command.kinds_eq hfields.encoding, List.sum_cons]
  omega

/-- A row of commands takes as many bytes as its sizes say. -/
theorem Command.length_of_encodeAll? {d : Dialect} {cs : List Command} {bs : List UInt8}
    (h : Command.encodeAll? d cs = .ok bs) : bs.length = (cs.map (·.size d)).sum := by
  obtain ⟨parts, hparts, h⟩ := Outcome.bind_eq_ok.mp h
  cases h
  rw [List.length_flatten, Outcome.map_of_mapM hparts Command.length_of_encode?]

/-- Commands in range and the bytes that they are written as. -/
structure Spells (d : Dialect) (locals : Nat) (pool : List Constant) (cs : List Command)
    (bs : List UInt8) : Prop where
  written : Command.encodeAll? d cs = .ok bs
  inRange : ∀ c ∈ cs, c.InRange d locals pool

namespace Decode

variable {d : Dialect} {locals start codeEnd o : Nat} {pool : List Constant}

theorem operandFault?_eq_none {kind : OperandKind} {value : Nat} :
    operandFault? d locals pool kind value = none ↔ kind.InRange d locals pool value := by
  cases kind <;> simp only [operandFault?, OperandKind.InRange, ite_eq_right_iff, reduceCtorEq,
    imp_false, Nat.not_le]
  -- A name is in range when the pool has a string there.
  cases pool[value]? with
  | none => simp
  | some k => cases k <;> simp [Constant.isString]

instance (kind : OperandKind) (value : Nat) : Decidable (kind.InRange d locals pool value) :=
  decidable_of_iff _ operandFault?_eq_none

instance (c : Command) : Decidable (c.InRange d locals pool) :=
  inferInstanceAs (Decidable (∀ o ∈ (c.kinds d).zip c.operands, o.1.InRange d locals pool o.2))

instance (cs : List Command) (bs : List UInt8) : Decidable (Spells d locals pool cs bs) :=
  decidable_of_iff ((Command.encodeAll? d cs).toOption = some bs ∧ ∀ c ∈ cs, c.InRange d locals pool)
    ⟨fun h => ⟨Outcome.toOption_eq_some.mp h.1, h.2⟩,
      fun h => ⟨Outcome.toOption_eq_some.mpr h.1, h.2⟩⟩

/-- What a mnemonic is written as is read as an operation with it. -/
theorem operationAt?_of_encoding? {mnemonic : String} {code : Nat} {op : Operation}
    (h : d.encoding? mnemonic = some (code, op)) :
    d.operationAt? code = some op ∧ op.mnemonic = mnemonic := by
  unfold Dialect.encoding? at h
  obtain ⟨code', hcode, h⟩ := Option.bind_eq_some_iff.mp h
  obtain ⟨op', hop, h⟩ := Option.bind_eq_some_iff.mp h
  cases h
  refine ⟨hop, ?_⟩
  unfold Dialect.opcodeOf? at hcode
  obtain ⟨hlt, hmnemonic, -⟩ := List.findIdx?_eq_some_iff_getElem.mp hcode
  unfold Dialect.operationAt? at hop
  rw [List.getElem?_eq_getElem hlt, Option.join_some] at hop
  rw [hop] at hmnemonic
  exact beq_iff_eq.mp hmnemonic

/-! ## Reading a command -/

/-- Operands with their places, the first at `o`. -/
def placeOperands (d : Dialect) : Nat → List OperandKind → List Nat → List PlacedOperand
  | o, kind :: kinds, value :: values =>
    ⟨kind, value, o⟩ :: placeOperands d (o + d.operandWidth kind) kinds values
  | _, _, _ => []

theorem map_value_placeOperands {kinds : List OperandKind} {values : List Nat}
    (h : values.length = kinds.length) :
    (placeOperands d o kinds values).map (·.value) = values := by
  induction kinds generalizing values o with
  | nil =>
    rw [List.length_eq_zero_iff.mp h]
    rfl
  | cons kind kinds ih =>
    cases values with
    | nil => cases h
    | cons value values =>
      unfold placeOperands
      rw [List.map_cons, ih (Nat.succ.inj h)]

theorem operand_frames {mnemonic : String} {kind : OperandKind} {value : Nat} {bs : List UInt8}
    (hwritten : Bytes.ofUInt? value (d.operandWidth kind) = .ok bs)
    (hrange : kind.InRange d locals pool value) (hend : o + bs.length ≤ codeEnd) :
    (operand d locals pool mnemonic codeEnd kind).Frames o ⟨kind, value, o⟩ bs
      [d.operandWidth kind] := by
  have hlimit : ∀ l ∈ (some (codeEnd : Int)), (o + bs.length : Int) ≤ l := by
    intro l hl
    cases hl
    omega
  refine .offset_bind (((Frames.uint _ _ hlimit hwritten).bind ?_).congr (List.append_nil _)
    (List.append_nil _))
  rw [operandFault?_eq_none.mpr hrange]
  exact .pure _ _

theorem operands_frames {mnemonic : String} {kinds : List OperandKind} {values : List Nat}
    {parts : List (List UInt8)} (hcount : values.length = kinds.length)
    (hwritten : List.Forall₂ (fun o bs => Bytes.ofUInt? (o.2 : Nat) (d.operandWidth o.1) = .ok bs)
      (kinds.zip values) parts)
    (hrange : ∀ o ∈ kinds.zip values, o.1.InRange d locals pool o.2)
    (hend : o + parts.flatten.length ≤ codeEnd) :
    (kinds.mapM (operand d locals pool mnemonic codeEnd)).Frames o (placeOperands d o kinds values)
      parts.flatten (kinds.map d.operandWidth) := by
  induction kinds generalizing values parts o with
  | nil =>
    cases hwritten
    exact .pure o []
  | cons kind kinds ih =>
    cases values with
    | nil => cases hcount
    | cons value values =>
      cases hwritten with
      | @cons _ bs _ parts hbs hparts =>
      rw [List.flatten_cons, List.length_append] at hend
      have hhead : (operand d locals pool mnemonic codeEnd kind).Frames o ⟨kind, value, o⟩ bs
          [d.operandWidth kind] := operand_frames hbs (hrange _ List.mem_cons_self) (by omega)
      have hwidth : bs.length = d.operandWidth kind := by
        have := hhead.sum
        simpa using this.symm
      have hrest := ih (o := o + bs.length) (Nat.succ.inj hcount) hparts
        (fun x hx => hrange x (List.mem_cons_of_mem _ hx)) (by omega)
      rw [List.mapM_cons]
      refine hhead.bind ?_
      rw [hwidth] at hrest ⊢
      exact hrest.map

/-- An instruction with its placed operands, read from a command at an offset of the payload. -/
structure ReadFrom (d : Dialect) (start o : Nat) (c : Command) (p : Placed) : Prop where
  command : p.1.command = c
  kinds : p.1.kinds = c.kinds d
  offset : p.1.offset = o - start
  size : p.1.size = c.size d
  position : p.1.position = o
  line : p.1.line = none
  operands : p.2 = placeOperands d (o + d.opcodeWidth) (c.kinds d) c.operands

/-- **One command.** A command in range is read from its bytes. -/
theorem instruction_frames {c : Command} {bs : List UInt8} (hwritten : c.encode? d = .ok bs)
    (hrange : c.InRange d locals pool) (hend : o + bs.length ≤ codeEnd) :
    ∃ p, (instruction d locals pool start codeEnd).Frames o p bs (c.sizes d) ∧
      ReadFrom d start o c p := by
  obtain ⟨code, op, head, parts, hfields, rfl⟩ := Encode.instruction_eq_ok.mp hwritten
  obtain ⟨hop, hmnemonic⟩ := operationAt?_of_encoding? hfields.encoding
  have hhead := hfields.head
  have hkinds : c.kinds d = op.operands := Command.kinds_eq hfields.encoding
  have hlen : c.operands.length = op.operands.length := by simpa using hfields.count
  have hparts := hfields.parts
  rw [List.zip_map_right, List.forall₂_map_left_iff] at hparts
  rw [List.length_append] at hend
  have hsize : head.length = d.opcodeWidth := by
    have := (Bytes.toNat_of_ofUInt? hhead).1
    omega
  have hlimit : ∀ l ∈ (some (codeEnd : Int)), (o + head.length : Int) ≤ l := by
    intro l hl
    cases hl
    omega
  have hoperands : (op.operands.mapM (operand d locals pool op.mnemonic codeEnd)).Frames
      (o + head.length) (placeOperands d (o + head.length) op.operands c.operands) parts.flatten
      (op.operands.map d.operandWidth) :=
    operands_frames hlen hparts (fun x hx => hrange x (hkinds ▸ hx)) (by omega)
  have hvalues := map_value_placeOperands (d := d) (o := o + head.length) hlen
  have hsizes : d.opcodeWidth :: op.operands.map d.operandWidth = c.sizes d := by
    unfold Command.sizes
    rw [hkinds]
  generalize hplaced : placeOperands d (o + head.length) op.operands c.operands = placed at *
  refine ⟨(⟨o - start, code, op.mnemonic, placed.map (·.value), op.operands,
    o + head.length + parts.flatten.length - o, op.stackDelta (placed.map (·.value)), op.transfer,
    none, o⟩, placed), ?_, ?_⟩
  · refine (Frames.offset_bind ((Frames.uint _ _ hlimit hhead).bind ?_)).congr rfl hsizes
    rw [hop]
    refine (hoperands.bind ?_).congr (List.append_nil _) (List.append_nil _)
    dsimp only
    exact .offset_bind (.pure _ _)
  · have hsum := hoperands.sum
    refine ⟨?_, hkinds.symm, rfl, ?_, rfl, rfl, ?_⟩
    · show Command.mk op.mnemonic (placed.map (·.value)) = c
      rw [hvalues, hmnemonic]
    · show o + head.length + parts.flatten.length - o = c.size d
      unfold Command.size
      rw [← hsizes, List.sum_cons, hsum]
      omega
    · rw [← hplaced, hsize, hkinds]

/-! ## Streams -/

/-- Commands one after another, the instructions that are read from them at an offset of the payload,
and their bytes. -/
inductive Stream (d : Dialect) (locals : Nat) (pool : List Constant) (start codeEnd : Nat) :
    Nat → List Command → List Placed → List UInt8 → Prop where
  | nil (o : Nat) : Stream d locals pool start codeEnd o [] [] []
  | cons {o : Nat} {c : Command} {cs : List Command} {p : Placed} {ps : List Placed}
      {bs bs' : List UInt8} (hwritten : c.encode? d = .ok bs) (hrange : c.InRange d locals pool)
      (hframes : (instruction d locals pool start codeEnd).Frames o p bs (c.sizes d))
      (hread : ReadFrom d start o c p)
      (hrest : Stream d locals pool start codeEnd (o + bs.length) cs ps bs') :
      Stream d locals pool start codeEnd o (c :: cs) (p :: ps) (bs ++ bs')

/-- **Commands in range** make a stream. -/
theorem exists_stream (start : Nat) {cs : List Command} {bs : List UInt8}
    (h : Spells d locals pool cs bs) (hend : o + bs.length ≤ codeEnd) :
    ∃ ps, Stream d locals pool start codeEnd o cs ps bs := by
  obtain ⟨hwritten, hrange⟩ := h
  obtain ⟨parts, hparts, hwritten⟩ := Outcome.bind_eq_ok.mp hwritten
  cases hwritten
  rw [Outcome.mapM_eq_ok] at hparts
  clear * - hparts hrange hend
  induction hparts generalizing o with
  | nil => exact ⟨[], .nil o⟩
  | @cons c bs cs parts hbs _ ih =>
    rw [List.flatten_cons, List.length_append] at hend
    obtain ⟨p, hframes, hread⟩ : ∃ p, (instruction d locals pool start codeEnd).Frames o p bs
        (c.sizes d) ∧ ReadFrom d start o c p :=
      instruction_frames hbs (hrange c List.mem_cons_self) (by omega)
    obtain ⟨ps, hps⟩ := ih (o := o + bs.length)
      (fun c hc => hrange c (List.mem_cons_of_mem _ hc)) (by omega)
    exact ⟨p :: ps, .cons hbs (hrange c List.mem_cons_self) hframes hread hps⟩

namespace Stream

variable {cs : List Command} {ps : List Placed} {bs : List UInt8}

/-- The sizes of the fields make up the bytes. -/
theorem sum_sizes (h : Stream d locals pool start codeEnd o cs ps bs) :
    (cs.flatMap (·.sizes d)).sum = bs.length := by
  induction h with
  | nil => rfl
  | cons _ _ hframes _ _ ih =>
    rw [List.flatMap_cons, List.sum_append, List.length_append, ih, hframes.sum]

/-- Every instruction is read from a command. -/
theorem exists_readFrom (h : Stream d locals pool start codeEnd o cs ps bs) :
    ∀ p ∈ ps, ∃ c o', o ≤ o' ∧ ReadFrom d start o' c p := by
  induction h with
  | nil => simp
  | cons _ _ _ hread _ ih =>
    intro p hp
    rcases List.mem_cons.mp hp with rfl | hp
    · exact ⟨_, _, Nat.le_refl _, hread⟩
    · obtain ⟨c, o', hle, hread⟩ := ih p hp
      exact ⟨c, o', by omega, hread⟩

/-- The fields of the instructions are those of the commands. -/
theorem flatMap_sizes (h : Stream d locals pool start codeEnd o cs ps bs) :
    (ps.map (·.1)).flatMap (·.sizes d) = cs.flatMap (·.sizes d) := by
  induction h with
  | nil => rfl
  | cons _ _ _ hread _ ih =>
    rw [List.map_cons, List.flatMap_cons, List.flatMap_cons, ih, Instruction.sizes, hread.kinds,
      Command.sizes]

theorem map_command (h : Stream d locals pool start codeEnd o cs ps bs) :
    (ps.map (·.1)).map (·.command) = cs := by
  induction h with
  | nil => rfl
  | cons _ _ _ hread _ ih =>
    rw [List.map_cons, List.map_cons, ih, hread.command]

theorem map_offset (h : Stream d locals pool start codeEnd o cs ps bs) (hstart : start ≤ o) :
    (ps.map (·.1)).map (·.offset) = Command.starts d (o - start) cs := by
  induction h with
  | nil => rfl
  | @cons o c cs p ps bs bs' _ _ hframes hread _ ih =>
    have hsize : c.size d = bs.length := hframes.sum
    have hnext : o - start + c.size d = o + bs.length - start := by omega
    rw [List.map_cons, List.map_cons, ih (by omega), hread.offset, Command.starts, hnext]

theorem tiles (h : Stream d locals pool start codeEnd o cs ps bs) (hstart : start ≤ o) :
    Tiles (o - start) (ps.map (·.1)) (o - start + bs.length) := by
  induction h with
  | nil => exact .nil _
  | @cons o c cs p ps bs bs' _ _ hframes hread _ ih =>
    have hsize : c.size d = bs.length := hframes.sum
    refine .cons hread.offset (hread.size ▸ c.size_pos d) ?_
    have hrest := ih (by omega)
    have h1 : o + bs.length - start = o - start + p.1.size := by rw [hread.size]; omega
    have h2 : o - start + p.1.size + bs'.length = o - start + (bs ++ bs').length := by
      rw [List.length_append, hread.size]
      omega
    rwa [h1, h2] at hrest

/-- The commands are in range, and written as the bytes. -/
theorem spells (h : Stream d locals pool start codeEnd o cs ps bs) : Spells d locals pool cs bs := by
  induction h with
  | nil => exact ⟨rfl, by simp⟩
  | cons hwritten hrange _ _ _ ih =>
    obtain ⟨parts, hparts, hrest⟩ := Outcome.bind_eq_ok.mp ih.written
    cases hrest
    refine ⟨Outcome.bind_eq_ok.mpr ⟨_ :: parts, ?_, rfl⟩, List.forall_mem_cons.mpr ⟨hrange, ih.inRange⟩⟩
    rw [Outcome.mapM_eq_ok] at hparts ⊢
    exact .cons hwritten hparts

/-- A stream is cut before any of its instructions. -/
theorem split {before after : List Placed} {p : Placed}
    (h : Stream d locals pool start codeEnd o cs (before ++ p :: after) bs) :
    ∃ cs₁ c cs₂ bs₁, cs = cs₁ ++ c :: cs₂ ∧
      Stream d locals pool start codeEnd o cs₁ before bs₁ ∧
      ReadFrom d start (o + bs₁.length) c p := by
  induction before generalizing o cs bs with
  | nil =>
    cases h with
    | cons _ _ _ hread _ => exact ⟨[], _, _, [], rfl, .nil o, hread⟩
  | cons q before ih =>
    cases h with
    | cons hwritten hrange hframes hread hrest =>
    obtain ⟨cs₁, c, cs₂, bs₁, rfl, hbefore, hp⟩ := ih hrest
    refine ⟨_ :: cs₁, c, cs₂, _ ++ bs₁, rfl, .cons hwritten hrange hframes hread hbefore, ?_⟩
    rw [List.length_append, ← Nat.add_assoc]
    exact hp

/-- **A whole stream** is read to its end. -/
theorem instructions_eq {c c' : Cursor} {fuel : Nat}
    (h : Stream d locals pool start codeEnd o cs ps bs) (done : List Placed) (hc : c.Valid)
    (ho : c.offset = o)
    (hthrough : c.Through bs c') (hfuel : c.rest.length < fuel) :
    instructions d locals pool start codeEnd c'.offset fuel done c = .ok (done.reverse ++ ps) := by
  induction h generalizing c fuel done with
  | nil =>
    obtain ⟨fuel, rfl⟩ : ∃ n, fuel = n + 1 := ⟨fuel - 1, by omega⟩
    unfold instructions
    rw [if_pos (Nat.le_of_eq (by simpa using hthrough.offset)), List.append_nil]
  | @cons o c₀ cs p ps bs bs' _ _ hframes hread _ ih =>
    obtain ⟨fuel, rfl⟩ : ∃ n, fuel = n + 1 := ⟨fuel - 1, by omega⟩
    obtain ⟨c₁, h₁, h₂⟩ := hthrough.split
    have hsize : c₀.size d = bs.length := hframes.sum
    have hpos := c₀.size_pos d
    have hoff := hthrough.offset
    have hrest := congrArg List.length h₁.rest
    rw [List.length_append] at hoff hrest
    unfold instructions
    rw [if_neg (by omega), hframes.whole hc ho h₁]
    dsimp only
    rw [ih (p :: done) (h₁.valid hc) (by rw [h₁.offset, ho]) h₂ (by omega), List.reverse_cons,
      List.append_assoc, List.singleton_append]

/-- **A stream that is cut off** is read up to the last instruction before the cut, and the field
with the cut is at fault. -/
theorem instructions_cut {c : Cursor} {k fuel : Nat}
    (h : Stream d locals pool start codeEnd o cs ps bs) (stop : Nat) (done : List Placed)
    (hc : c.Valid) (ho : c.offset = o)
    (hk : k < bs.length) (hrest : c.rest = bs.take k) (hstop : o + bs.length ≤ stop)
    (hfuel : c.rest.length < fuel) :
    ∃ fault n, Straddles (cs.flatMap (·.sizes d)) k n ∧
      instructions d locals pool start codeEnd stop fuel done c =
        .error ⟨⟨fault, o + n⟩,
          (done.reverse ++ ps.filter fun p => p.1.position + p.1.size ≤ o + k).map (·.1)⟩ := by
  induction h generalizing c k fuel done with
  | nil => exact absurd hk (Nat.not_lt_zero _)
  | @cons o c₀ cs p ps bs bs' _ _ hframes hread htail ih =>
    obtain ⟨fuel, rfl⟩ : ∃ n, fuel = n + 1 := ⟨fuel - 1, by omega⟩
    have hsize : c₀.size d = bs.length := hframes.sum
    have hpos := c₀.size_pos d
    rw [List.length_append] at hk hstop
    unfold instructions
    rw [if_neg (by omega)]
    by_cases hlt : k < bs.length
    · -- The cut falls into this instruction, so no later one ends before it.
      rw [List.take_append_of_le_length (Nat.le_of_lt hlt)] at hrest
      obtain ⟨fault, n, c', hrun, hcut⟩ := hframes.cut hc ho hlt hrest
      refine ⟨fault, n, hcut.append_right _, ?_⟩
      have hnone : (p :: ps).filter (fun p => p.1.position + p.1.size ≤ o + k) = [] := by
        rw [List.filter_eq_nil_iff]
        intro q hq
        rw [decide_eq_true_eq, Nat.not_le]
        rcases List.mem_cons.mp hq with rfl | hq
        · rw [hread.position, hread.size]
          omega
        · obtain ⟨_, o', hle, hq⟩ := htail.exists_readFrom q hq
          rw [hq.position]
          omega
      rw [hrun, hnone, List.append_nil]
    · obtain ⟨j, rfl⟩ : ∃ j, k = bs.length + j := ⟨k - bs.length, by omega⟩
      rw [List.take_length_add_append] at hrest
      obtain ⟨c₁, h₁, hrest₁⟩ := Cursor.exists_through hrest
      have hlen := congrArg List.length h₁.rest
      rw [List.length_append] at hlen
      obtain ⟨fault, n, hcut, hrun⟩ := @ih c₁ j fuel (p :: done)
        (h₁.valid hc) (by rw [h₁.offset, ho]) (by omega) hrest₁ (by omega) (by omega)
      refine ⟨fault, bs.length + n, ?_, ?_⟩
      · rw [List.flatMap_cons, ← hframes.sum]
        exact hcut.append_left _
      · have hkept : p.1.position + p.1.size ≤ o + (bs.length + j) := by
          rw [hread.position, hread.size]
          omega
        rw [hframes.whole hc ho h₁, List.filter_cons_of_pos (by simpa using hkept)]
        dsimp only
        rw [hrun, List.reverse_cons, List.append_assoc, List.singleton_append]
        simp only [Nat.add_assoc]

end Stream

end Decode

end Unscript
