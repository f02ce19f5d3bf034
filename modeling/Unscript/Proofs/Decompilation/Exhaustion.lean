import Unscript.Proofs.Container
import Unscript.Proofs.Decompilation.Results
import Unscript.Proofs.Script.Decoding
import Unscript.Proofs.Structuring.Straight

/-!
# Units that need many calls

A function that negates a value `n` times takes one byte of code for each time, and to write the value
that it returns takes two nested calls for each. So no bound on nested calls is enough for all units:
each of them is exhausted by a unit of a few bytes more than half the bound.

* `Negations.bytes`: the unit whose only function returns itself, negated `n` times.

Results:
* `Negations.lift`, `Negations.straight`: what its code is lifted to, and that it is straight.
* `Negations.not_suffices`: the calls that it needs.
* `Decompiler.runOn_negations`: it exhausts a bound below them.
* `Decompiler.not_forall_runOn_ok`: a thousand calls are not enough for every unit.
-/

namespace Unscript

/-- The operation of an instruction is the one of its mnemonic. -/
theorem Instruction.Conforms.of_encoding? {d : Dialect} {locals : Nat} {pool : List Constant}
    {i : Instruction} (hd : d.Regular) (h : i.Conforms d locals pool) {code : Nat} {op : Operation}
    (henc : d.encoding? i.mnemonic = some (code, op)) :
    i.transfer = op.transfer ∧ i.kinds = op.operands := by
  obtain ⟨op', hop, hmnemonic, hkinds, htransfer, -⟩ := h.operation
  rw [hmnemonic, hd.encoding? hop] at henc
  cases henc
  exact ⟨htransfer, hkinds⟩

namespace Negations

open Registry (oldest)

variable {n k locals : Nat} {pool : List Constant} {i : Instruction} {is : List Instruction}

/-! ## The unit -/

/-- The commands that return the object itself, negated `n` times. -/
def commands (n : Nat) : List Command :=
  ⟨"LOAD_SELF", []⟩ :: (List.replicate n ⟨"NOT", []⟩ ++ [⟨"RETURN", []⟩])

/-- Their code. -/
def code (n : Nat) : List UInt8 :=
  4 :: (List.replicate n 18 ++ [44])

/-- A function of that code, without a name. -/
def record (n : Nat) : FunctionRecord :=
  { header := {}, constants := [], code := code n }

/-- The payload with that function alone. -/
def payload (n : Nat) : List UInt8 :=
  [1, 0, 0, 0, 0, 0, 0, 0, 0, 0, 0, 0, 0, 0, 0, 0, 0] ++ (Bytes.ofNat 4 (n + 2) ++ code n)

/-- A unit of the oldest dialect with that payload. -/
def bytes (n : Nat) : List UInt8 :=
  Container.magic ++ [1, 0, 0, 0, 7] ++ Decompiler.oldestTag ++ payload n

theorem length_code (n : Nat) : (code n).length = n + 2 := by
  simp [code]

/-- What the dialect makes of a mnemonic without operands: the byte it is written as, where control
goes behind it, and what it does. -/
structure Operates (m : String) (opcode : UInt8) (transfer : Transfer) (action : Action) : Prop where
  written : Command.encode? oldest ⟨m, []⟩ = .ok [opcode]
  listed : (oldest.encoding? m).map (fun e => (e.2.transfer, e.2.operands)) = some (transfer, [])
  legal : oldest.missingFeature? m = none
  acts : Action.ofMnemonic? m = some action

theorem operates : Operates "LOAD_SELF" 4 .next .loadSelf ∧ Operates "NOT" 18 .next (.unary .not) ∧
    Operates "RETURN" 44 .ret .consume :=
  ⟨⟨by decide +kernel, by decide +kernel, rfl, by decide +kernel⟩,
    ⟨by decide +kernel, by decide +kernel, rfl, by decide +kernel⟩,
    ⟨by decide +kernel, by decide +kernel, rfl, by decide +kernel⟩⟩

section Operates

variable {m : String} {opcode : UInt8} {transfer : Transfer} {action : Action}

theorem Operates.kinds (h : Operates m opcode transfer action) : Command.kinds oldest ⟨m, []⟩ = [] := by
  obtain ⟨⟨_, _⟩, he, hboth⟩ := Option.map_eq_some_iff.mp h.listed
  exact (Command.kinds_eq he).trans (Prod.mk.inj hboth).2

/-- Instructions that are decoded with the mnemonic. -/
theorem Operates.conforms (h : Operates i.mnemonic opcode transfer action)
    (hi : i.Conforms oldest locals pool) : i.transfer = transfer ∧ i.kinds = [] := by
  have hregular : oldest.Regular := (Dialect.registered_of_mem Registry.oldest_mem).regular
  obtain ⟨⟨_, _⟩, he, hboth⟩ := Option.map_eq_some_iff.mp h.listed
  obtain ⟨htransfer, hoperands⟩ := Prod.mk.inj hboth
  obtain ⟨hfound, hkinds⟩ := hi.of_encoding? hregular he
  exact ⟨hfound.trans htransfer, hkinds.trans hoperands⟩

end Operates

theorem encodeAll?_commands (n : Nat) : Command.encodeAll? oldest (commands n) = .ok (code n) := by
  obtain ⟨hself, hnot, hreturn⟩ := operates
  have hnots : List.Forall₂ (fun c bs => Command.encode? oldest c = .ok bs)
      (List.replicate n ⟨"NOT", []⟩ ++ [⟨"RETURN", []⟩]) (List.replicate n [18] ++ [[44]]) := by
    induction n with
    | zero => exact .cons hreturn.written .nil
    | succ n ih => exact .cons hnot.written ih
  refine Outcome.bind_eq_ok.mpr
    ⟨[4] :: (List.replicate n [18] ++ [[44]]), Outcome.mapM_eq_ok.mpr (.cons hself.written hnots), ?_⟩
  have hflat : (List.replicate n [(18 : UInt8)]).flatten = List.replicate n 18 :=
    List.flatten_replicate_singleton
  rw [List.flatten_cons, List.flatten_append, hflat]
  rfl

theorem kinds_eq_nil {c : Command} (hc : c ∈ commands n) : c.kinds oldest = [] := by
  obtain ⟨hself, hnot, hreturn⟩ := operates
  rcases List.mem_cons.mp hc with rfl | hc
  · exact hself.kinds
  rcases List.mem_append.mp hc with hc | hc
  · rw [List.eq_of_mem_replicate hc]
    exact hnot.kinds
  · rw [List.mem_singleton.mp hc]
    exact hreturn.kinds

/-- The record is in order. -/
theorem sound (n : Nat) : (record n).Sound oldest 1 (commands n) := by
  refine ⟨Nat.le_refl 0, nofun, ⟨⟨encodeAll?_commands n, fun c hc o ho => ?_⟩, fun c hc t ht => ?_⟩,
    nofun⟩
  · rw [kinds_eq_nil hc] at ho
    cases ho
  · rw [kinds_eq_nil hc] at ht
    cases ht

/-- The payload is what is written of the record. -/
theorem script?_record (hn : n + 2 < 2 ^ 32) :
    Encode.script? oldest [record n] = .ok (payload n) := by
  have hlength : Bytes.ofUInt? ((record n).code.length : Nat) 4 = .ok (Bytes.ofNat 4 (n + 2)) := by
    show Bytes.ofUInt? ((code n).length : Nat) 4 = _
    rw [length_code]
    exact (Bytes.ofUInt?_eq_ok (w := 4)).mpr ⟨by omega, by omega, rfl⟩
  have hheader : Encode.header oldest {} = .ok [0, 0, 0, 0, 0, 0, 0, 0, 0] := by decide +kernel
  have hempty : Bytes.ofUInt? 0 2 = .ok [0, 0] := rfl
  have hfunction : Encode.function oldest (record n) =
      .ok ([0, 0, 0, 0, 0, 0, 0, 0, 0, 0, 0] ++ (Bytes.ofNat 4 (n + 2) ++ code n)) := by
    refine Outcome.bind_eq_ok.mpr ⟨_, hheader, Outcome.bind_eq_ok.mpr ⟨_, hempty, ?_⟩⟩
    refine Outcome.bind_eq_ok.mpr ⟨[], rfl, Outcome.bind_eq_ok.mpr ⟨_, hlength, ?_⟩⟩
    refine Outcome.bind_eq_ok.mpr ⟨[], rfl, congrArg Except.ok ?_⟩
    simp [record]
  have hcount : Bytes.ofUInt? 1 2 = .ok [1, 0] := rfl
  have htext : Bytes.ofText? "" = .ok [0, 0, 0, 0] := by decide +kernel
  have hname : Encode.className oldest "" = .ok [] := rfl
  refine Outcome.bind_eq_ok.mpr ⟨_, hcount, Outcome.bind_eq_ok.mpr ⟨_, htext, ?_⟩⟩
  refine Outcome.bind_eq_ok.mpr ⟨_, hname, Outcome.bind_eq_ok.mpr ⟨_,
    Outcome.mapM_eq_ok.mpr (.cons hfunction .nil), congrArg Except.ok ?_⟩⟩
  simp [payload]

/-- The unit is opened as a container with that payload. -/
theorem ofBytes_bytes (n : Nat) : Container.ofBytes (bytes n) Container.anonymous =
    .ok ⟨Decompiler.oldestTag, payload n, some 1, Container.anonymous⟩ := by
  have hformat : Bytes.ofNat 4 1 = [1, 0, 0, 0] := rfl
  have hlength : Bytes.ofNat 1 7 = [7] := rfl
  have hbytes : bytes n = Container.magic ++
      (Bytes.ofNat 4 1 ++ (Bytes.ofNat 1 7 ++ (Decompiler.oldestTag ++ payload n))) := by
    rw [hformat, hlength]
    rfl
  have hwritten : Container.toBytes?
      ⟨Decompiler.oldestTag, payload n, some 1, Container.anonymous⟩ = .ok (bytes n) :=
    Container.toBytes?_eq_ok.mpr ⟨show (0 : Int) ≤ 1 by decide, show (1 : Int) < 2 ^ 32 by decide,
      show 7 ≤ 255 by decide, hbytes⟩
  exact Container.ofBytes_of_toBytes? rfl hwritten

/-! ## Its code -/

/-- The instructions of the code: the first, those that negate, and the last. -/
structure Parts (n : Nat) (first : Instruction) (nots : List Instruction) (last : Instruction) :
    Prop where
  first : first.mnemonic = "LOAD_SELF"
  length : nots.length = n
  nots : ∀ i ∈ nots, i.mnemonic = "NOT"
  last : last.mnemonic = "RETURN"

theorem exists_parts (h : is.map (·.command) = commands n) :
    ∃ first nots last, is = first :: nots ++ [last] ∧ Parts n first nots last := by
  obtain ⟨first, rest, rfl, hfirst, hrest⟩ := List.map_eq_cons_iff.mp h
  obtain ⟨nots, lasts, rfl, hnots, hlasts⟩ := List.map_eq_append_iff.mp hrest
  obtain ⟨last, rfl, hlast⟩ := List.map_eq_singleton_iff.mp hlasts
  obtain ⟨hlength, hnots⟩ := List.eq_replicate_iff.mp hnots
  rw [List.length_map] at hlength
  exact ⟨first, nots, last, rfl, congrArg Command.mnemonic hfirst, hlength,
    fun i hi => congrArg Command.mnemonic (hnots _ (List.mem_map_of_mem hi)),
    congrArg Command.mnemonic hlast⟩

variable {first last : Instruction} {nots : List Instruction}

/-- The code is straight. -/
theorem Parts.straight (h : Parts n first nots last) {length : Nat}
    (hdecoded : Decoded oldest locals pool length (first :: nots ++ [last])) :
    Straight (first :: nots) last := by
  obtain ⟨hself, hnot, hreturn⟩ := operates
  have hinit (i : Instruction) (hi : i ∈ first :: nots) : i.transfer = .next := by
    have hconforms := hdecoded.conforms i (List.mem_append_left _ hi)
    rcases List.mem_cons.mp hi with rfl | hi
    · exact (Operates.conforms (h.first ▸ hself) hconforms).1
    · exact (Operates.conforms (h.nots i hi ▸ hnot) hconforms).1
  have hlast := Operates.conforms (h.last ▸ hreturn) (hdecoded.conforms last (by simp))
  refine ⟨hinit, hlast.1, ?_, hdecoded.tiles.nodup_offset⟩
  · unfold Instruction.target?
    rw [hlast.2]
    rfl

/-! ## Its value -/

/-- The object itself, negated some times. -/
def value : Nat → Expr
  | 0 => .self
  | n + 1 => .unary .not (value n)

/-- Two calls are nested for each negation. -/
theorem calls_value (n : Nat) : (value n).calls = 2 * n + 1 := by
  induction n with
  | zero => rfl
  | succ n ih =>
    rw [value, Expr.calls, ih]
    omega

/-- Negations on the way. -/
theorem foldlM_nots (h : ∀ i ∈ is, i.mnemonic = "NOT") :
    is.foldlM (Symbolic.step oldest 0) { stack := [value k] } =
      .ok { stack := [value (k + is.length)] } := by
  induction is generalizing k with
  | nil => rfl
  | cons i is ih =>
    obtain ⟨hi, his⟩ := List.forall_mem_cons.mp h
    have hstep : Symbolic.step oldest 0 { stack := [value k] } i =
        .ok { stack := [value (k + 1)] } := by
      unfold Symbolic.step
      rw [hi, operates.2.1.legal, operates.2.1.acts]
      rfl
    rw [List.foldlM_cons]
    refine Outcome.bind_eq_ok.mpr ⟨_, hstep, ?_⟩
    rw [ih his, List.length_cons, Nat.add_right_comm, Nat.add_assoc]

/-- **The code** is lifted to the value that it returns. -/
theorem Parts.lift (h : Parts n first nots last) :
    Lifted.ofInstructions oldest 0 (first :: nots ++ [last]) = .ok { value := some (value n) } := by
  obtain ⟨hself, -, hreturn⟩ := operates
  have hfirst : Symbolic.step oldest 0 {} first = .ok { stack := [value 0] } := by
    unfold Symbolic.step
    rw [h.first, hself.legal, hself.acts]
    rfl
  have hlast : Symbolic.step oldest 0 { stack := [value n] } last =
      .ok { value := some (value n) } := by
    unfold Symbolic.step
    rw [h.last, hreturn.legal, hreturn.acts]
    rfl
  have hnots := foldlM_nots (k := 0) h.nots
  rw [h.length, Nat.zero_add] at hnots
  have hrun : (first :: nots ++ [last]).foldlM (Symbolic.step oldest 0) {} =
      .ok { value := some (value n) } := by
    rw [List.cons_append, List.foldlM_cons]
    refine Outcome.bind_eq_ok.mpr ⟨_, hfirst, ?_⟩
    rw [List.foldlM_append]
    exact Outcome.bind_eq_ok.mpr ⟨_, hnots, Outcome.bind_eq_ok.mpr ⟨_, hlast, rfl⟩⟩
  unfold Lifted.ofInstructions
  rw [hrun]
  rfl

/-! ## What it needs -/

open Decompiler (standardRun)

/-- The function that is decoded of the unit. -/
theorem exists_function (hn : n + 2 < 2 ^ 32) :
    ∃ f ∈ (Script.decode oldest (payload n)).functions, ∃ first nots last,
      f.instructions = first :: nots ++ [last] ∧ Parts n first nots last ∧
        Straight (first :: nots) last := by
  have hspec := Encode.decode_script? (Dialect.registered_of_mem Registry.oldest_mem)
    (List.forall_mem_singleton.mpr ⟨commands n, sound n⟩) (script?_record hn)
  obtain ⟨f, hf, hgives, hdecoded⟩ := hspec.2.2.2.2 0 (record n) (commands n) rfl (sound n)
  obtain ⟨first, nots, last, his, hparts⟩ := exists_parts hgives.commands
  rw [his] at hdecoded
  exact ⟨f, List.mem_of_getElem? hf, first, nots, last, his, hparts, hparts.straight hdecoded⟩

/-- Writing straight code nests three calls more than its value does. -/
theorem calls_add_three_le (style : Source.Style) (h : Header) (pool : List Constant)
    {t : Source.Tree} {e : Expr}
    (hbody : t.body = Structuring.straightNodes is { value := some e }) :
    e.calls + 3 ≤ Source.functionCalls style h pool t := by
  unfold Source.functionCalls
  rw [hbody]
  simp only [Structuring.straightNodes, Source.Writer.nodesCalls, Source.Writer.nodeCalls,
    Option.toList_some, Expr.callsAll]
  omega

/-- **The unit** needs more calls than two for each negation. -/
theorem not_suffices (hn : n + 2 < 2 ^ 32) {calls : Nat} (h : calls < 2 * n + 4) :
    ¬ standardRun.Suffices (some calls)
      ⟨Decompiler.oldestTag, payload n, some 1, Container.anonymous⟩ := by
  intro hsuffices
  obtain ⟨f, hf, first, nots, last, his, hparts, hstraight⟩ := exists_function hn
  obtain ⟨-, hwritten⟩ := hsuffices oldest (Decompiler.dialectOf_oldestTag _) f hf
  obtain ⟨s, hs, hbody⟩ : ∃ s, (Structured.ofInstructions oldest standardRun.options.structuring
      (first :: nots ++ [last]) (some f.codeLength)).value = .ok s ∧
        s.body = Structuring.straightNodes (first :: nots ++ [last]) { value := some (value n) } :=
    Structured.ofInstructions_straight hstraight rfl hparts.lift _
  rw [← his] at hs
  have hcalls := hwritten s hs calls rfl
  have hneeds := calls_add_three_le (standardRun.styleOf oldest (Script.decode oldest (payload n)))
    f.header f.constants (t := .ofStructured s) hbody
  rw [calls_value] at hneeds
  exact absurd (hneeds.trans hcalls) (by omega)

end Negations

namespace Decompiler

/-- **A bound on calls is exhausted** by a value that is negated half as often. -/
theorem runOn_negations {n calls : Nat} (hn : n + 2 < 2 ^ 32) (h : calls < 2 * n + 4) :
    (standardRun.runOn (some calls) (.blob (Negations.bytes n) none)).value =
      .error .exhausted :=
  ((runOn_settles registered_standardRun (fun _ => rfl) (some calls) (Negations.bytes n) none).2).mpr
    ⟨rfl, _, Negations.ofBytes_bytes n, Negations.not_suffices hn h⟩

/-- A thousand calls are not enough for every unit: a value that is negated more often than that needs
more of them. -/
theorem not_forall_runOn_ok : ¬ ∀ (bytes : List UInt8) (name : Option String),
    ∃ u, (standardRun.runOn (some 1000) (.blob bytes name)).value = .ok u := by
  intro hall
  obtain ⟨u, hu⟩ := hall (Negations.bytes 1200) none
  rw [runOn_negations (by decide) (by decide)] at hu
  cases hu

end Decompiler

end Unscript
