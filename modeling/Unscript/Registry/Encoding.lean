import Unscript.Dialect.Basic
import Unscript.Registry.Fault

/-!
# Operations and the encodings of eras

* `operation` resolves an operation and `encoding` the numbering and the widths of an era, in which
  no operation is numbered twice and every number fits its width.
-/

namespace Unscript.Registry

/-! ## Operations -/

/-- Resolves the operand kinds of an operation. -/
def operandKinds (e : OperationEntry) : Resolved (List OperandKind) :=
  e.operands.mapM fun k =>
    match OperandKind.ofText? k with
    | some kind => .ok kind
    | none => .error (.operandKind e.mnemonic k)

/-- Resolves the variadic operands of an operation; each has to be one of its operands. -/
def variadicKinds (e : OperationEntry) (kinds : List OperandKind) :
    Resolved (List (OperandKind × Int)) :=
  (e.variadic.mergeSort fun a b => a.1 ≤ b.1).mapM fun v =>
    match OperandKind.ofText? v.1 with
    | some kind =>
      if kind ∈ kinds then .ok (kind, v.2) else .error (.variadicKind e.mnemonic v.1)
    | none => .error (.variadicKind e.mnemonic v.1)

/-- Resolves an operation. -/
def operation (e : OperationEntry) : Resolved Operation := do
  let operands ← operandKinds e
  let variadic ← variadicKinds e operands
  match Transfer.ofText? e.transfer with
  | none => .error (.transfer e.mnemonic e.transfer)
  | some transfer =>
    let pops ← countValue e.pops
    let pushes ← countValue e.pushes
    pure { mnemonic := e.mnemonic, operands, pops, pushes, variadic, transfer }

/-! ## Eras -/

/-- Numbers the operations of an era; `numbered` are those numbered so far, reversed. -/
def numberOperations (era : String) (ops : List Operation) :
    List (Option Operation) → List (Option String) → Resolved (List (Option Operation))
  | numbered, [] => .ok numbered.reverse
  | numbered, none :: rest => numberOperations era ops (none :: numbered) rest
  | numbered, some m :: rest =>
    match ops.find? (·.mnemonic == m) with
    | none => .error (.eraMnemonic era m)
    | some op =>
      if numbered.any (Dialect.hasMnemonic m) then .error (.eraDuplicate era m)
      else numberOperations era ops (some op :: numbered) rest

/-- The width given under a name; a missing one counts as zero. -/
def widthOf (era : String) (widths : List (String × Count)) (name : String) : Resolved Width := do
  let n ← countValue ((widths.lookup name).getD (.int 0))
  match Width.ofBytes? n with
  | some w => pure w
  | none => .error (.eraWidth era name)

/-- The widths of an era, without those under further names. -/
def widthsOf (era : String) (widths : List (String × Count)) : Resolved Widths := do
  let opcode ← widthOf era widths "opcode"
  let table ← OperandKind.all.mapM fun k => do pure (k, ← widthOf era widths k.text)
  pure { opcode, operand := fun k => (table.lookup k).getD opcode, others := [] }

/-- The encoding of an era. -/
structure Encoding where
  era : EraEntry
  opcodes : List (Option Operation)
  widths : Widths

/-- The last number with an operation, if any. -/
def lastNumber? (opcodes : List (Option Operation)) : Option Nat :=
  ((opcodes.zipIdx.filter (·.1.isSome)).getLast?).map (·.2)

/-- Resolves the numbering and the widths of an era. -/
def encoding (ops : List Operation) (e : EraEntry) : Resolved Encoding := do
  let context := s!"era {e.name}"
  let names ← require context "opcodes" e.opcodes
  let opcodes ← numberOperations e.name ops [] names
  let table ← require context "operand_widths" e.widths
  let widths ← widthsOf e.name table
  match lastNumber? opcodes with
  | some n =>
    if widths.opcode.values ≤ n then .error (.eraNumbering e.name)
    else pure ⟨e, opcodes, widths⟩
  | none => pure ⟨e, opcodes, widths⟩

/-- The value of a count that has to be there. -/
def requiredCount (table : List (String × Count)) (name : String) : Resolved Int :=
  match table.lookup name with
  | some c => countValue c
  | none => .error .absent

end Unscript.Registry
