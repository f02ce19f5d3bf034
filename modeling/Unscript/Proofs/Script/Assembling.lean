import Unscript.Proofs.Script.Acceptance
import Unscript.Proofs.Script.Drafting

/-!
# Assembled functions

The offsets of labels are known while instructions are emitted, from the sizes of their operations;
the bytes are written later. Both agree: the code of a function has the instructions that were
emitted, with the offset of its label in place of every label, and it is decoded as these.

* `FunctionDraft.Writes`: the command that an instruction is written as.
* `FunctionDraft.Fits`: an instruction whose opcode and operands fit their widths.
* `OperandKind.Admits`: the operands with which code is decoded.
* `FunctionDraft.Assembled`: what a function has of the steps that made it.

Results:
* `FunctionDraft.legible`: the code of what was emitted is legible if its operands are in order.
* `FunctionDraft.Follows.exists_record_iff`: which functions can be assembled.
* `FunctionDraft.run_assembles`: what is assembled in a run.
-/

namespace Unscript

/-- Whether code with an operand can be decoded: labels are jumps, jumps lead to where they may lead,
and other numbers are in range. Local slots are, since there is room for all of them. -/
def OperandKind.Admits (d : Dialect) (pool : List Constant) (lands : Nat → Prop) :
    OperandKind → DraftOperand → Prop
  | .jump, .label _ => True
  | _, .label _ => False
  | .jump, .number n => lands n.toNat
  | .constant, .number n => n < pool.length
  | .name, .number n => ∃ s, pool[n.toNat]? = some (.string s)
  | .builtin, .number n => n < d.builtins.length
  | .slot, .number _ | .argc, .number _ | .count, .number _ => True

instance (d : Dialect) (pool : List Constant) (lands : Nat → Prop) [DecidablePred lands] :
    (kind : OperandKind) → (o : DraftOperand) → Decidable (kind.Admits d pool lands o)
  | .jump, .label _ => .isTrue trivial
  | .constant, .label _ | .name, .label _ | .slot, .label _ | .builtin, .label _ | .argc, .label _
  | .count, .label _ => .isFalse id
  | .jump, .number n => inferInstanceAs (Decidable (lands n.toNat))
  | .constant, .number n => inferInstanceAs (Decidable (n < (pool.length : Int)))
  | .name, .number n => inferInstanceAs (Decidable (OperandKind.name.InRange d 0 pool n.toNat))
  | .builtin, .number n => inferInstanceAs (Decidable (n < (d.builtins.length : Int)))
  | .slot, .number _ | .argc, .number _ | .count, .number _ => .isTrue trivial

namespace FunctionDraft

variable {d : Dialect} {f f₀ : FunctionDraft} {steps : List Step} {i : DraftInstruction}
  {c : Command} {cs : List Command} {bs : List UInt8}

/-- The command that an instruction is written as, after some steps. -/
structure Writes (d : Dialect) (steps : List Step) (i : DraftInstruction) (c : Command) : Prop where
  mnemonic : c.mnemonic = i.mnemonic
  operands : List.Forall₂ (StandsFor d steps) i.operands c.operands

/-- Whether the opcode of an instruction and all its operands fit their widths, after some steps. -/
structure Fits (d : Dialect) (steps : List Step) (i : DraftInstruction) : Prop where
  opcode : ∃ code op, d.encoding? i.mnemonic = some (code, op) ∧ code < 256 ^ d.opcodeWidth
  operands : ∀ o ∈ i.typed d, ∃ n, StandsFor d steps o.2 n ∧ n < 256 ^ d.operandWidth o.1

/-- Whether an instruction starts at an offset, or the code ends there, after some steps. -/
def Lands (d : Dialect) (steps : List Step) (t : Nat) : Prop :=
  Command.Lands d ((emitted steps).map (·.command [])) (extent d steps) t

instance (d : Dialect) (steps : List Step) (t : Nat) : Decidable (Lands d steps t) :=
  inferInstanceAs (Decidable
    (Command.Lands d ((emitted steps).map (·.command [])) (extent d steps) t))

/-- What a function has of the steps that made it. Its code consists of the instructions that were
emitted, in their order, with the offsets of the labels in place of these, and there is room for its
locals. If its operands are in order, the code is decoded as these instructions. -/
structure Assembled (d : Dialect) (steps : List Step) (r : FunctionRecord) (cs : List Command) :
    Prop where
  length : r.code.length = extent d steps
  commands : List.Forall₂ (Writes d steps) (emitted steps) cs
  written : Command.encodeAll? d cs = .ok r.code
  slots : ∀ i ∈ emitted steps, ∀ n : Int, (.slot, .number n) ∈ i.typed d → n < r.header.locals
  arguments : r.header.arguments ≤ r.header.locals
  decoded : (∀ i ∈ emitted steps, ∀ o ∈ i.typed d, o.1.Admits d r.constants (Lands d steps) o.2) →
    ∀ {c : Cursor} {rest : List UInt8}, c.Valid → c.rest = r.code ++ rest →
      ∃ is, Decode.code d r.header.locals r.constants {} c r.code.length = .ok is ∧
        is.map (·.command) = cs ∧ is.map (·.offset) = Command.starts d 0 cs

/-! ## Commands -/

namespace Writes

theorem kinds (h : Writes d steps i c) : c.kinds d = (i.command []).kinds d := by
  unfold Command.kinds
  rw [h.mnemonic]
  rfl

theorem size (h : Writes d steps i c) : c.size d = i.size d := by
  unfold DraftInstruction.size Command.size Command.sizes
  rw [h.kinds]

end Writes

section Rows

variable {is : List DraftInstruction} (h : List.Forall₂ (Writes d steps) is cs)
include h

theorem sum_sizes : (cs.map (·.size d)).sum = (is.map (·.size d)).sum := by
  rw [Outcome.map_eq_of_forall₂ h Writes.size]

theorem starts_eq (o : Nat) :
    Command.starts d o cs = Command.starts d o (is.map (·.command [])) := by
  induction h generalizing o with
  | nil => rfl
  | cons hwrites _ ih =>
    rw [List.map_cons, Command.starts, Command.starts, hwrites.size, ih]
    rfl

end Rows

/-- A label is where an instruction starts or the code ends. -/
theorem StandsFor.lands {name : String} {t : Nat} (h : StandsFor d steps (.label name) t) :
    Lands d steps t := by
  cases h with
  | @label before after _ h =>
  subst h
  unfold Lands Command.Lands
  rw [emitted_append, extent_append, List.map_append, Command.starts_append, Nat.zero_add,
    List.map_map, List.mem_append]
  cases hafter : emitted (.label name :: after) with
  | nil =>
    right
    rw [extent, extent, hafter]
    rfl
  | cons j rest =>
    left
    right
    exact List.mem_cons_self

/-- An operand with which code can be decoded is in range, and leads to where jumps may lead. -/
theorem StandsFor.inRange {o : DraftOperand} {n locals : Nat} {pool : List Constant}
    {kind : OperandKind} (h : StandsFor d steps o n)
    (hadmits : kind.Admits d pool (Lands d steps) o)
    (hslot : (kind, o) = (.slot, .number n) → n < locals) :
    kind.InRange d locals pool n ∧ (kind = .jump → Lands d steps n) := by
  cases h with
  | number n =>
    cases kind with
    | constant => exact ⟨Int.ofNat_lt.mp hadmits, nofun⟩
    | name => exact ⟨hadmits, nofun⟩
    | slot => exact ⟨hslot rfl, nofun⟩
    | builtin => exact ⟨Int.ofNat_lt.mp hadmits, nofun⟩
    | argc | count => exact ⟨trivial, nofun⟩
    | jump => exact ⟨trivial, fun _ => hadmits⟩
  | label h =>
    cases kind with
    | jump => exact ⟨trivial, fun _ => (StandsFor.label h).lands⟩
    | _ => exact hadmits.elim

/-- **The code of what was emitted** is legible if its operands are in order. -/
theorem legible {locals : Nat} {pool : List Constant}
    (hcommands : List.Forall₂ (Writes d steps) (emitted steps) cs)
    (hwritten : Command.encodeAll? d cs = .ok bs)
    (hslots : ∀ i ∈ emitted steps, ∀ n : Int, (.slot, .number n) ∈ i.typed d → n < locals)
    (hadmits : ∀ i ∈ emitted steps, ∀ o ∈ i.typed d,
      o.1.Admits d pool (Lands d steps) o.2) : Legible d locals pool cs bs := by
  have hlength : bs.length = extent d steps :=
    (Command.length_of_encodeAll? hwritten).trans (sum_sizes hcommands)
  have hlands : Command.Lands d cs bs.length = Lands d steps := by
    funext t
    rw [Lands, Command.Lands, Command.Lands, starts_eq hcommands, hlength]
  have hoperands : ∀ c ∈ cs, ∀ kind n, (kind, n) ∈ (c.kinds d).zip c.operands →
      kind.InRange d locals pool n ∧ (kind = .jump → Lands d steps n) := by
    intro c hc kind n hn
    obtain ⟨i, hi, hwrites⟩ := Outcome.exists_of_mem_right hcommands hc
    rw [hwrites.kinds] at hn
    obtain ⟨o, ho, hstands⟩ := Outcome.exists_of_mem_zip hwrites.operands hn
    refine hstands.inRange (hadmits i hi _ ho) fun hslot => ?_
    rw [hslot] at ho
    exact Int.ofNat_lt.mp (hslots i hi n ho)
  refine ⟨⟨hwritten, fun c hc o ho => (hoperands c hc o.1 o.2 ho).1⟩, fun c hc t ht => ?_⟩
  rw [hlands]
  exact (hoperands c hc .jump t ht).2 rfl

/-! ## Writing what was emitted -/

/-- Writes an instruction. -/
def write? (f : FunctionDraft) (i : DraftInstruction) : Except EncodeError (List UInt8) := do
  let operands ← i.operands.mapM f.resolve
  Encode.instruction f.dialect i.mnemonic operands

theorem assembleItem_ok {a a' : Assembly} (h : f.assembleItem a i = .ok a') :
    ∃ bs, f.write? i = .ok bs ∧ a'.code = a.code ++ bs := by
  unfold assembleItem at h
  obtain ⟨operands, hoperands, h⟩ := Outcome.bind_eq_ok.mp h
  obtain ⟨bs, hbs, h⟩ := Outcome.bind_eq_ok.mp h
  obtain ⟨e, -, h⟩ := Outcome.bind_eq_ok.mp h
  cases h
  exact ⟨bs, Outcome.bind_eq_ok.mpr ⟨operands, hoperands, hbs⟩, rfl⟩

theorem exists_assembleItem (a : Assembly) (h : f.write? i = .ok bs) :
    ∃ a', f.assembleItem a i = .ok a' := by
  obtain ⟨operands, hoperands, h⟩ := Outcome.bind_eq_ok.mp h
  obtain ⟨code, op, head, parts, hfields, -⟩ := Encode.instruction_eq_ok.mp h
  refine Outcome.exists_bind_eq_ok.mpr ⟨operands, hoperands, ?_⟩
  refine Outcome.exists_bind_eq_ok.mpr ⟨bs, h, ?_⟩
  exact Outcome.exists_bind_eq_ok.mpr ⟨_, Encode.encodingOf_eq_ok.mpr hfields.encoding, _, rfl⟩

/-- Instructions are written one behind the other. -/
theorem foldlM_assembleItem_ok {items : List DraftInstruction} {a a' : Assembly}
    (h : items.foldlM f.assembleItem a = .ok a') :
    ∃ parts, items.mapM f.write? = .ok parts ∧ a'.code = a.code ++ parts.flatten := by
  induction items generalizing a with
  | nil =>
    cases h
    exact ⟨[], rfl, (List.append_nil _).symm⟩
  | cons i items ih =>
    obtain ⟨a₁, h₁, h⟩ := Outcome.bind_eq_ok.mp h
    obtain ⟨bs, hbs, hcode⟩ := assembleItem_ok h₁
    obtain ⟨parts, hparts, hrest⟩ := ih h
    rw [Outcome.mapM_eq_ok] at hparts
    refine ⟨bs :: parts, Outcome.mapM_eq_ok.mpr (.cons hbs hparts), ?_⟩
    rw [hrest, hcode, List.append_assoc, List.flatten_cons]

theorem exists_foldlM_assembleItem {items : List DraftInstruction} (a : Assembly)
    (h : ∀ i ∈ items, ∃ bs, f.write? i = .ok bs) :
    ∃ a', items.foldlM f.assembleItem a = .ok a' := by
  induction items generalizing a with
  | nil => exact ⟨a, rfl⟩
  | cons i items ih =>
    obtain ⟨bs, hbs⟩ := h i List.mem_cons_self
    obtain ⟨a₁, h₁⟩ := exists_assembleItem a hbs
    have hrest := ih a₁ fun i hi => h i (List.mem_cons_of_mem _ hi)
    exact Outcome.exists_bind_eq_ok.mpr ⟨a₁, h₁, hrest⟩

/-- What is assembled of a draft. -/
theorem record_ok {r : FunctionRecord} (h : f.record = .ok r) :
    r.header.locals = f.locals ∧ r.header.arguments = f.arguments ∧ r.constants = f.pool ∧
      ∃ parts, f.items.mapM f.write? = .ok parts ∧ r.code = parts.flatten := by
  obtain ⟨a, ha, h⟩ := Outcome.bind_eq_ok.mp h
  obtain ⟨parts, hparts, hcode⟩ := foldlM_assembleItem_ok ha
  cases h
  exact ⟨rfl, rfl, rfl, parts, hparts, hcode⟩

/-- A function is assembled when each of its instructions can be written. -/
theorem exists_record_iff_write? :
    (∃ r, f.record = .ok r) ↔ ∀ i ∈ f.items, ∃ bs, f.write? i = .ok bs := by
  constructor
  · rintro ⟨r, h⟩ i hi
    obtain ⟨-, -, -, parts, hparts, -⟩ := record_ok h
    obtain ⟨bs, -, hbs⟩ := Outcome.exists_mem_mapM hparts hi
    exact ⟨bs, hbs⟩
  · intro h
    obtain ⟨a, ha⟩ := exists_foldlM_assembleItem {} h
    exact Outcome.exists_bind_eq_ok.mpr ⟨a, ha, _, rfl⟩

/-! ## What is written, in terms of the steps -/

namespace Follows

/-- **An operand** is resolved to the number that it stands for. -/
theorem resolve_eq_ok (h : Follows f₀ steps f) {o : DraftOperand} {n : Nat} :
    f.resolve o = .ok (n : Int) ↔ StandsFor f₀.dialect steps o n := by
  cases o with
  | number z =>
    constructor
    · intro hz
      cases hz
      exact .number n
    · rintro ⟨⟩
      rfl
  | label name =>
    rw [← h.labels]
    cases hlookup : f.labels.lookup name <;> simp [resolve, hlookup]

theorem standsFor_unique (h : Follows f₀ steps f) {o : DraftOperand} {m n : Nat}
    (hm : StandsFor f₀.dialect steps o m) (hn : StandsFor f₀.dialect steps o n) : m = n := by
  rw [← h.resolve_eq_ok] at hm hn
  exact Int.ofNat_inj.mp (Except.ok.inj (hm.symm.trans hn))

/-- **An instruction** is written as the command with what its operands stand for. -/
theorem write?_eq_ok (h : Follows f₀ steps f) : f.write? i = .ok bs ↔
    ∃ c, Writes f₀.dialect steps i c ∧ c.encode? f₀.dialect = .ok bs := by
  have hresolve {values : List Nat} :
      i.operands.mapM f.resolve = .ok (values.map fun (n : Nat) => (n : Int)) ↔
        List.Forall₂ (StandsFor f₀.dialect steps) i.operands values := by
    rw [Outcome.mapM_eq_ok, List.forall₂_map_right_iff]
    exact ⟨fun hall => hall.imp fun _ _ => h.resolve_eq_ok.mp,
      fun hall => hall.imp fun _ _ => h.resolve_eq_ok.mpr⟩
  constructor
  · intro hwrite
    obtain ⟨operands, hoperands, hbs⟩ := Outcome.bind_eq_ok.mp hwrite
    rw [h.dialect] at hbs
    -- A negative operand is not written.
    obtain ⟨values, rfl⟩ := Encode.exists_natural hbs
    exact ⟨⟨i.mnemonic, values⟩, ⟨rfl, hresolve.mp hoperands⟩, hbs⟩
  · rintro ⟨⟨mnemonic, values⟩, ⟨rfl, hoperands⟩, hbs⟩
    refine Outcome.bind_eq_ok.mpr ⟨_, hresolve.mpr hoperands, ?_⟩
    rw [h.dialect]
    exact hbs

/-- **Which instructions** can be written. -/
theorem exists_write?_iff (h : Follows f₀ steps f) (hi : i ∈ emitted steps) :
    (∃ bs, f.write? i = .ok bs) ↔ Fits f₀.dialect steps i := by
  obtain ⟨code, op, hencoding, hcount⟩ := h.counts i hi
  have htyped : i.typed f₀.dialect = op.operands.zip i.operands := by
    rw [DraftInstruction.typed, Command.kinds_eq hencoding]
  constructor
  · rintro ⟨bs, hbs⟩
    obtain ⟨c, hwrites, hbs⟩ := h.write?_eq_ok.mp hbs
    obtain ⟨code', op', head, parts, hfields, -⟩ := Encode.instruction_eq_ok.mp hbs
    have hsame := hfields.encoding
    rw [hwrites.mnemonic, hencoding] at hsame
    cases hsame
    refine ⟨⟨code, op, hencoding, Bytes.exists_ofUInt?_iff.mp ⟨head, hfields.head⟩⟩, fun o ho => ?_⟩
    rw [htyped] at ho
    obtain ⟨n, hn, hstands⟩ := Outcome.exists_of_mem_zip hwrites.operands.flip ho
    have hvalue : (o.1, (n : Int)) ∈
        op.operands.zip (c.operands.map fun (n : Nat) => (n : Int)) := by
      rw [List.zip_map_right]
      exact List.mem_map.mpr ⟨(o.1, n), hn, rfl⟩
    obtain ⟨part, -, hpart⟩ := Outcome.exists_of_mem_left hfields.parts hvalue
    exact ⟨n, hstands, Bytes.exists_ofUInt?_iff.mp ⟨part, hpart⟩⟩
  · rintro ⟨⟨code', op', hsame, hcode⟩, hoperands⟩
    rw [hencoding] at hsame
    cases hsame
    rw [htyped] at hoperands
    have hresolves : ∀ o ∈ i.operands, ∃ z, f.resolve o = .ok z := by
      intro o ho
      rw [← List.map_snd_zip (Nat.le_of_eq hcount)] at ho
      obtain ⟨⟨kind, o⟩, htyped, rfl⟩ := List.mem_map.mp ho
      obtain ⟨n, hn, -⟩ := hoperands _ htyped
      exact ⟨n, h.resolve_eq_ok.mpr hn⟩
    obtain ⟨values, hvalues⟩ := Outcome.exists_mapM_ok hresolves
    rw [Outcome.mapM_eq_ok] at hvalues
    have hfits : ∀ o ∈ op.operands.zip values, ∃ bs,
        Bytes.ofUInt? o.2 (f₀.dialect.operandWidth o.1) = .ok bs := by
      rintro ⟨kind, z⟩ hz
      obtain ⟨o, ho, hz⟩ := Outcome.exists_of_mem_zip hvalues hz
      obtain ⟨n, hn, hfits⟩ := hoperands _ ho
      cases (h.resolve_eq_ok.mpr hn).symm.trans hz
      exact Bytes.exists_ofUInt?_iff.mpr hfits
    obtain ⟨head, hhead⟩ := Bytes.exists_ofUInt?_iff.mpr hcode
    obtain ⟨parts, hparts⟩ := Outcome.exists_mapM_ok hfits
    refine Outcome.exists_bind_eq_ok.mpr ⟨values, Outcome.mapM_eq_ok.mpr hvalues, ?_⟩
    rw [h.dialect]
    exact ⟨_, Encode.instruction_eq_ok.mpr ⟨code, op, head, parts, {
      encoding := hencoding
      count := hvalues.length_eq.symm.trans hcount
      head := hhead
      parts := Outcome.mapM_eq_ok.mp hparts }, rfl⟩⟩

/-- **Which functions** can be assembled: those all of whose instructions fit. -/
theorem exists_record_iff (h : Follows f₀ steps f) :
    (∃ r, f.record = .ok r) ↔ ∀ i ∈ emitted steps, Fits f₀.dialect steps i := by
  rw [exists_record_iff_write?, h.items]
  exact forall₂_congr fun i hi => h.exists_write?_iff hi

/-- **What is assembled** of the steps that made a draft. -/
theorem assembled (h : Follows f₀ steps f) (hroom : f₀.arguments ≤ f₀.locals) {r : FunctionRecord}
    (hr : f.record = .ok r) : ∃ cs, Assembled f₀.dialect steps r cs := by
  obtain ⟨hlocals, harguments, -, parts, hparts, hcode⟩ := record_ok hr
  rw [h.items, Outcome.mapM_eq_ok] at hparts
  obtain ⟨cs, hcommands, hbytes⟩ :=
    Outcome.exists_between (hparts.imp fun _ _ => h.write?_eq_ok.mp)
  have hwritten : Command.encodeAll? f₀.dialect cs = .ok r.code :=
    Outcome.bind_eq_ok.mpr ⟨parts, Outcome.mapM_eq_ok.mpr hbytes, by rw [hcode]; rfl⟩
  have hslots : ∀ i ∈ emitted steps, ∀ n : Int, (.slot, .number n) ∈ i.typed f₀.dialect →
      n < r.header.locals := hlocals ▸ h.slots
  refine ⟨cs, {
    length := (Command.length_of_encodeAll? hwritten).trans (sum_sizes hcommands)
    commands := hcommands
    written := hwritten
    slots := hslots
    arguments := by
      rw [hlocals, harguments, h.arguments]
      exact Nat.le_trans hroom h.locals
    decoded := ?_ }⟩
  intro hadmits c rest hc hrest
  obtain ⟨c', hthrough, -⟩ := Cursor.exists_through hrest
  obtain ⟨ps, hstream, hdecoded⟩ :=
    Decode.exists_code_eq_ok hc (legible hcommands hwritten hslots hadmits) hthrough
  have hoffsets := hstream.map_offset (Nat.le_refl _)
  rw [Nat.sub_self] at hoffsets
  exact ⟨_, hdecoded, hstream.map_command, hoffsets⟩

end Follows

/-- **What is assembled** by a run of steps from an empty function of any dialect, though some of the
steps may fail. A step that fails leaves the draft as it was, and makes no difference to what follows.
There is a function in the end exactly when
everything fits that was emitted, so not when a jump leads further than its width can tell. Its code
is as long as the draft says, and consists of what was emitted, in order, with labels replaced by
where they were placed; there is room for its locals and arguments; and it is decoded as what was
emitted, if labels are used as jumps only, other jumps lead to instructions or to the end, and the
constants, names and builtins are there. -/
theorem run_assembles (d : Dialect) (name : String) (index arguments locals : Nat)
    (localNames : List String) (isStatic : Bool) (steps : List Step) :
    let f₀ := start d name index arguments locals localNames isStatic
    let f := f₀.run steps
    let done := f₀.taken steps
    (∀ before s after e f', steps = before ++ s :: after →
      (perform s).runOn (f₀.run before) = (.error e, f') →
        f' = f₀.run before ∧ f = f₀.run (before ++ after)) ∧
    (done.forM perform).runOn f₀ = (.ok (), f) ∧
    ((∃ r, f.record = .ok r) ↔ ∀ i ∈ emitted done, Fits d done i) ∧
    (∀ r, f.record = .ok r → r.code.length = f.size ∧ r.header.arguments = arguments ∧
      r.constants = f.pool ∧ ∃ cs, Assembled d done r cs) ∧
    ∀ i ∈ emitted done, ∀ o t, (.jump, o) ∈ i.typed d → StandsFor d done o t →
      256 ^ d.operandWidth .jump ≤ t → ∃ e, f.record = .error e := by
  intro f₀ f done
  have hfollows : Follows f₀ done f := follows_run rfl rfl rfl steps
  have hroom : f₀.arguments ≤ f₀.locals :=
    Nat.le_trans (Nat.le_max_right locals arguments) (Nat.le_max_left _ localNames.length)
  refine ⟨?_, runOn_taken f₀ steps, hfollows.exists_record_iff, ?_, ?_⟩
  · rintro before s after e f' rfl he
    exact ⟨runOn_perform_error he, run_skips he after⟩
  · intro r hr
    obtain ⟨-, harguments, hpool, -⟩ := record_ok hr
    obtain ⟨cs, hassembled⟩ := hfollows.assembled hroom hr
    exact ⟨hassembled.length.trans hfollows.size.symm, harguments.trans hfollows.arguments, hpool,
      cs, hassembled⟩
  · intro i hi o t ho ht hwide
    cases hr : f.record with
    | error e => exact ⟨e, rfl⟩
    | ok r =>
      obtain ⟨n, hn, hfits⟩ := (hfollows.exists_record_iff.mp ⟨r, hr⟩ i hi).operands _ ho
      cases hfollows.standsFor_unique hn ht
      exact absurd hfits (Nat.not_lt.mpr hwide)

/-- A loop of the oldest dialect with a jump forward, one back, one by its number, a label that is
placed twice and an instruction without its operand; and a jump that leads too far. -/
theorem run_assembles_loop :
    let d := Registry.oldest
    let f₀ := start d "f" 0 1
    let steps : List Step := [
      .emit ⟨"NOP", [], none⟩, .label "top", .emit ⟨"LOAD_LOCAL", [.number 3], none⟩,
      .emit ⟨"JUMP_IF_FALSE", [.label "end"], none⟩, .label "top", .constant .nil,
      .emit ⟨"LOAD_CONST", [], none⟩, .emit ⟨"LOAD_CONST", [.number 0], none⟩,
      .emit ⟨"JUMP", [.label "top"], none⟩, .label "end", .emit ⟨"JUMP", [.number 6], none⟩]
    let far : List Step := [.emit ⟨"JUMP", [.number 65536], none⟩]
    let done := f₀.taken steps
    (perform (.label "top")).runOn (f₀.run (steps.take 4)) =
      (.error (.duplicateLabel "top"), f₀.run (steps.take 4)) ∧
    f₀.run steps = f₀.run (steps.eraseIdx 4) ∧
    (∃ r cs is, (f₀.run steps).record = .ok r ∧ Assembled d done r cs ∧
      (∀ i ∈ emitted done, ∀ o ∈ i.typed d, o.1.Admits d r.constants (Lands d done) o.2) ∧
      Decode.code d r.header.locals r.constants {} (Cursor.ofBytes r.code) r.code.length = .ok is ∧
      is.map (·.command) = cs) ∧
    ∃ e, (f₀.run far).record = .error e := by
  intro d f₀ steps far done
  obtain ⟨hskips, -, -, hrecord, -⟩ := run_assembles d "f" 0 1 0 [] false steps
  obtain ⟨-, -, -, -, hfar⟩ := run_assembles d "f" 0 1 0 [] false far
  have hplaced : (f₀.run (steps.take 4)).labels.lookup "top" ≠ none := by decide +kernel
  have htwice : (perform (.label "top")).runOn (f₀.run (steps.take 4)) =
      (.error (.duplicateLabel "top"), f₀.run (steps.take 4)) :=
    (label_cases (f₀.run (steps.take 4)) "top").resolve_right fun hnew => hplaced hnew.1
  have hwritten : (f₀.run steps).record.toOption.isSome := by decide +kernel
  obtain ⟨r, hr⟩ := Option.isSome_iff_exists.mp hwritten
  rw [Outcome.toOption_eq_some] at hr
  obtain ⟨-, -, hpool, cs, hassembled⟩ := hrecord r hr
  have hadmits : ∀ i ∈ emitted done, ∀ o ∈ i.typed d,
      o.1.Admits d (f₀.run steps).pool (Lands d done) o.2 := by decide +kernel
  rw [← hpool] at hadmits
  obtain ⟨is, hdecoded, hcommands, -⟩ :=
    hassembled.decoded hadmits (Cursor.valid_ofBytes r.code) (List.append_nil _).symm
  obtain ⟨i, hi, hjump⟩ : ∃ i ∈ emitted (f₀.taken far),
      (.jump, .number (65536 : Nat)) ∈ i.typed d := by decide +kernel
  exact ⟨htwice, (hskips (steps.take 4) _ (steps.drop 5) _ _ rfl htwice).2,
    ⟨r, cs, is, hr, hassembled, hadmits, hdecoded, hcommands⟩,
    hfar i hi _ 65536 hjump (.number 65536) (by decide +kernel)⟩

end FunctionDraft

end Unscript
