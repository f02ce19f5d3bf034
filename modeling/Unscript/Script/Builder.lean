import Unscript.Script.Encode

/-!
# Assembling functions by mnemonic

A function is put together step by step, in place. Jump operands may be labels: since the size of
every instruction is fixed when it is emitted, a label is the offset at which it was placed.

* `FunctionDraft` is a function being assembled; `emit`, `label`, `constant` and `useLocal` are the
  steps and `record` the result.
* `Drafting` is a step that may fail, with the function that it leaves.
* `ScriptDraft` is a unit of such functions.
-/

namespace Unscript

/-- An operand as it is emitted: a number or the name of a label. -/
inductive DraftOperand where
  | number (n : Int)
  | label (name : String)
  deriving DecidableEq, Repr

/-- An emitted instruction. -/
structure DraftInstruction where
  mnemonic : String
  operands : List DraftOperand
  line : Option Nat
  deriving Repr

/-- A function being assembled. `size` is the offset of the next instruction. -/
structure FunctionDraft where
  dialect : Dialect
  name : String
  index : Nat
  arguments : Nat
  locals : Nat
  localNames : List String
  isStatic : Bool
  pool : List Constant := []
  items : List DraftInstruction := []
  labels : List (String × Nat) := []
  size : Nat := 0

namespace FunctionDraft

/-- A function without code. It has at least as many locals as arguments and names. -/
def start (d : Dialect) (name : String) (index : Nat) (arguments locals : Nat := 0)
    (localNames : List String := []) (isStatic : Bool := false) : FunctionDraft where
  dialect := d
  name := name
  index := index
  arguments := arguments
  locals := max (max locals arguments) localNames.length
  localNames := localNames
  isStatic := isStatic

/-- The index of a constant, which is added to the pool if it is not there. -/
def constant (f : FunctionDraft) (c : Constant) : Nat × FunctionDraft :=
  match f.pool.findIdx? (c.same ·) with
  | some i => (i, f)
  | none => (f.pool.length, { f with pool := f.pool ++ [c] })

/-- Makes room for a local slot. -/
def useLocal (f : FunctionDraft) (slot : Int) : FunctionDraft :=
  { f with locals := max f.locals (slot + 1).toNat }

/-- Makes room for the locals among the operands. -/
def useLocals (f : FunctionDraft) (operands : List (OperandKind × DraftOperand)) : FunctionDraft :=
  operands.foldl (fun f o =>
    match o with
    | (.slot, .number n) => f.useLocal n
    | _ => f) f

end FunctionDraft

/-- A step that works on a function in place and may fail. What it changes before it fails is not
taken back. -/
abbrev Drafting := ExceptT EncodeError (StateM FunctionDraft)

/-- Runs a step on a function. -/
def Drafting.runOn {α : Type} (m : Drafting α) (f : FunctionDraft) :
    Except EncodeError α × FunctionDraft :=
  m.run.run f

namespace FunctionDraft

/-- Places a label at the next instruction. -/
def label (name : String) : Drafting Unit := do
  if ((← get).labels.lookup name).isSome then throw (.duplicateLabel name)
  else modify fun f => { f with labels := f.labels ++ [(name, f.size)] }

/-- Emits an instruction. -/
def emit (mnemonic : String) (operands : List DraftOperand) (line : Option Nat := none) :
    Drafting Unit := do
  let d := (← get).dialect
  let (_, op) ← Encode.encodingOf d mnemonic
  Encode.checkCount op operands.length
  modify (·.useLocals (op.operands.zip operands))
  modify fun f => { f with items := f.items ++ [⟨mnemonic, operands, line⟩] }
  modify fun f => { f with size := f.size + d.instructionSize op }

/-- The number of an operand, with labels replaced by their offsets. -/
def resolve (f : FunctionDraft) : DraftOperand → Except EncodeError Int
  | .number n => .ok n
  | .label name =>
    match f.labels.lookup name with
    | some offset => .ok offset
    | none => .error (.undefinedLabel name)

/-- What is known while the code is written: the bytes, the line entries, and the depth of the
stack now and at its deepest. -/
structure Assembly where
  code : List UInt8 := []
  lines : List (Nat × Nat) := []
  depth : Int := 0
  deepest : Int := 0

/-- Writes one instruction after those before it. -/
def assembleItem (f : FunctionDraft) (a : Assembly) (i : DraftInstruction) :
    Except EncodeError Assembly := do
  let operands ← i.operands.mapM f.resolve
  let bytes ← Encode.instruction f.dialect i.mnemonic operands
  let (_, op) ← Encode.encodingOf f.dialect i.mnemonic
  let depth := max (a.depth + op.stackDelta (operands.map Int.toNat)) 0
  pure {
    code := a.code ++ bytes
    lines := match i.line with
      | some line => a.lines ++ [(a.code.length, line)]
      | none => a.lines
    depth
    deepest := max a.deepest depth }

/-- The function that was assembled. Its stack is as deep as its code, read in order, gets it. -/
def record (f : FunctionDraft) : Except EncodeError FunctionRecord := do
  let a ← f.items.foldlM f.assembleItem {}
  pure {
    header := {
      index := f.index
      name := f.name
      arguments := f.arguments
      locals := f.locals
      stack := a.deepest.toNat
      isStatic := f.isStatic
      localNames := f.localNames }
    constants := f.pool
    code := a.code
    lines := if f.dialect.lineWidth = 0 then [] else a.lines }

end FunctionDraft

/-- A unit being assembled. -/
structure ScriptDraft where
  dialect : Dialect
  baseClass : String := ""
  className : String := ""
  functions : List FunctionDraft := []

namespace ScriptDraft

/-- The functions that were assembled. -/
def records (s : ScriptDraft) : Except EncodeError (List FunctionRecord) :=
  s.functions.mapM (·.record)

/-- The payload of the unit. -/
def payload? (s : ScriptDraft) : Except EncodeError (List UInt8) := do
  Encode.script? s.dialect (← s.records) s.baseClass s.className

/-- The unit as a container. -/
def container? (s : ScriptDraft) : Except EncodeError Container := do
  Encode.container? s.dialect (← s.records) s.baseClass s.className

end ScriptDraft

end Unscript
