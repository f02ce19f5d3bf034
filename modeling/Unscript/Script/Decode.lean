import Unscript.Script.Function

/-!
# Decoding payloads

The operation table of a dialect fixes the boundaries of all instructions: they are computed and
never guessed. Every field is checked against the bytes that are there; the first one that cannot
be read or is out of range stops the function, which keeps the instructions before it. A function
whose code is broken does not disturb the others, as long as its code lies within the payload.

* `decodeCode` decodes a stream of instructions.
* `Script.decode` decodes a payload, of each function at most a bounded part of its code and of the
  payload at most a bounded count of functions if so asked.
* `applyLines` gives every instruction the line of the last table entry at or before it.
-/

namespace Unscript

/-- Bounds on how much of a payload is decoded. -/
structure Bounds where
  codeBytes : Option Nat := none
  functions : Option Nat := none
  deriving DecidableEq, Repr

namespace Decode

/-! ## Instructions -/

/-- The fault of an operand that is out of range, if it is. -/
def operandFault? (d : Dialect) (locals : Nat) (pool : List Constant) (kind : OperandKind)
    (value : Nat) : Option DecodeFault :=
  match kind with
  | .constant => if pool.length ≤ value then some (.constantRange value pool.length) else none
  | .name =>
    match pool[value]? with
    | none => some (.nameRange value pool.length)
    | some c => if c.isString then none else some (.nameKind value)
  | .slot => if locals ≤ value then some (.localRange value locals) else none
  | .builtin =>
    if d.builtins.length ≤ value then some (.builtinRange value d.builtins.length) else none
  | .argc | .count | .jump => none

/-- An operand with its place in the payload. -/
structure PlacedOperand where
  kind : OperandKind
  value : Nat
  position : Nat
  deriving Repr

/-- Reads one operand and checks its range. -/
def operand (d : Dialect) (locals : Nat) (pool : List Constant) (mnemonic : String) (codeEnd : Nat)
    (kind : OperandKind) : Reading PlacedOperand := do
  let position ← Reading.offset
  let value ← Reading.uint (d.operandWidth kind) s!"{kind.text} operand of {mnemonic}" (some codeEnd)
  match operandFault? d locals pool kind value with
  | some fault => Reading.failAt position fault
  | none => return ⟨kind, value, position⟩

/-- Reads one instruction of a stream that starts at `start`, with the places of its operands. -/
def instruction (d : Dialect) (locals : Nat) (pool : List Constant) (start codeEnd : Nat) :
    Reading (Instruction × List PlacedOperand) := do
  let position ← Reading.offset
  let code ← Reading.uint d.opcodeWidth "opcode" (some codeEnd)
  match d.operationAt? code with
  | none => Reading.failAt position (.opcode code)
  | some op =>
    let placed ← op.operands.mapM (operand d locals pool op.mnemonic codeEnd)
    let values := placed.map (·.value)
    let ending ← Reading.offset
    return ({
      offset := position - start
      opcode := code
      mnemonic := op.mnemonic
      operands := values
      kinds := op.operands
      size := ending - position
      stackDelta := op.stackDelta values
      transfer := op.transfer
      position }, placed)

/-- Instructions with the places of their operands. -/
abbrev Placed := Instruction × List PlacedOperand

/-- An error and the instructions before it. -/
structure CodeError where
  error : DecodeError
  before : List Instruction

/-- Reads instructions until the cursor stands at `stop` or beyond. Every instruction takes at least
one byte, so the count of bytes is fuel enough. -/
def instructions (d : Dialect) (locals : Nat) (pool : List Constant) (start codeEnd stop : Nat) :
    Nat → List Placed → Cursor → Except CodeError (List Placed)
  | 0, done, _ => .ok done.reverse
  | fuel + 1, done, c =>
    if stop ≤ c.offset then .ok done.reverse
    else
      match (instruction d locals pool start codeEnd).runFrom c with
      | (.ok i, c) => instructions d locals pool start codeEnd stop fuel (i :: done) c
      | (.error e, _) => .error ⟨e, done.reverse.map (·.1)⟩

/-- The first jump to an offset that is no boundary: how many instructions stand before it, and the
operand. -/
def strayJump? (boundaries : List Nat) (placed : List Placed) : Option (Nat × PlacedOperand) :=
  placed.zipIdx.findSome? fun (p, index) =>
    (p.2.find? fun o => o.kind == .jump && !boundaries.contains o.value).map fun o => (index, o)

/-- Decodes the stream of `length` bytes at `start`, whose first bytes are `rest`; `available` is
the size of the payload. -/
def code (d : Dialect) (locals : Nat) (pool : List Constant) (bounds : Bounds) (cursor : Cursor)
    (length : Nat) : Except CodeError (List Instruction) :=
  let start := cursor.offset
  let codeEnd := start + length
  let stop := match bounds.codeBytes with
    | some n => min codeEnd (start + n)
    | none => codeEnd
  match instructions d locals pool start codeEnd stop (cursor.rest.length + 1) [] cursor with
  | .error e => .error e
  | .ok placed =>
    let found := placed.map (·.1)
    if bounds.codeBytes.isSome && stop < codeEnd then .ok found
    else
      match strayJump? (length :: found.map (·.offset)) placed with
      | some (index, o) => .error ⟨⟨.jumpTarget o.value, o.position⟩, found.take index⟩
      | none => .ok found

/-! ## Tables -/

/-- Runs a reading step a number of times. -/
def times {α : Type} (step : Reading α) : Nat → Reading (List α)
  | 0 => return []
  | n + 1 => do
    let a ← step
    let rest ← times step n
    return a :: rest

/-- Reads a constant. A tag whose name is none of the usual kinds marks a subscript. -/
def constant (d : Dialect) (functionCount : Nat) : Reading Constant := do
  let start ← Reading.offset
  let tag ← Reading.uint 1 "constant tag"
  match d.constants.nameOfTag? tag with
  | none => Reading.failAt start (.constantTag tag)
  | some name =>
    match ConstantKind.ofText? name with
    | some .nil => return .nil
    | some .bool =>
      let position ← Reading.offset
      let raw ← Reading.uint 1 "bool constant"
      if 1 < raw then Reading.failAt position (.boolValue raw)
      return .bool (raw == 1)
    | some .int => return .int (← Reading.sint d.constants.intWidth "int constant")
    | some .float => return .float (← Reading.float d.constants.floatWidth "float constant")
    | some .string => return .string (← Reading.string "string constant")
    | some .resource => return .resource (← Reading.string "resource constant")
    | some .subscript | none =>
      let position ← Reading.offset
      let index ← Reading.uint 2 "sub-script reference"
      if functionCount ≤ index then Reading.failAt position (.subscriptRange index)
      return .subscript index

/-- Reads the pool of constants. -/
def constants (d : Dialect) (functionCount : Nat) : Reading (List Constant) := do
  let count ← Reading.uint (d.operandWidth .constant) "constant count"
  times (constant d functionCount) count

/-- Reads one entry of the line table. In a function that was decoded to its end the offset has to
be a boundary. -/
def lineEntry (d : Dialect) (boundaries : Option (List Nat)) : Reading (Nat × Nat) := do
  let position ← Reading.offset
  let offset ← Reading.uint (d.operandWidth .jump) "line table offset"
  let line ← Reading.uint d.lineWidth "line number"
  match boundaries with
  | some known =>
    if known.contains offset then return (offset, line)
    else Reading.failAt position (.lineOffset offset)
  | none => return (offset, line)

/-- Reads the line table. -/
def lineTable (d : Dialect) (boundaries : Option (List Nat)) : Reading (List (Nat × Nat)) := do
  let count ← Reading.uint (d.operandWidth .count) "line table size"
  times (lineEntry d boundaries) count

/-! ## Lines -/

/-- The order of entries: by offset, then by line. -/
def entryLE (a b : Nat × Nat) : Bool :=
  a.1 < b.1 || (a.1 == b.1 && a.2 ≤ b.2)

/-- Merges sorted entries into instructions: `current` is the line of the last entry passed. -/
def mergeLines : Option Nat → List (Nat × Nat) → List Instruction → List Instruction
  | _, _, [] => []
  | current, entries, i :: rest =>
    let passed := entries.takeWhile (·.1 ≤ i.offset)
    let current := match passed.getLast? with
      | some e => some e.2
      | none => current
    let shown := match current with
      | some line => { i with line := some line }
      | none => i
    shown :: mergeLines current (entries.drop passed.length) rest

/-- Gives every instruction the line of the last entry, in order of offset and line, at or before
it. -/
def applyLines (instructions : List Instruction) (lines : List (Nat × Nat)) : List Instruction :=
  mergeLines none (lines.mergeSort entryLE) instructions

/-! ## Functions -/

/-- The bits of the function flags. -/
def localNamesFlag : Nat := 1

/-- The flag of a static function. -/
def staticFlag : Nat := 2

/-- Reads the header of a function. -/
def header (d : Dialect) (index : Nat) : Reading Header := do
  let name ← Reading.string "function name"
  let position ← Reading.offset
  let arguments ← Reading.uint 1 "argument count"
  let locals ← Reading.uint (d.operandWidth .slot) "local count"
  if locals < arguments then Reading.failAt position (.argumentCount arguments locals)
  let stack ← Reading.uint (d.operandWidth .count) "stack size"
  let position ← Reading.offset
  let flags ← Reading.uint 1 "function flags"
  if localNamesFlag + staticFlag < flags then Reading.failAt position (.functionFlags flags)
  let localNames ←
    if flags % 2 = 1 then times (Reading.string "local name") locals else pure []
  return {
    index, name, arguments, locals, stack, isStatic := staticFlag ≤ flags, localNames }

/-- Decodes the code at the cursor and the line table after it. -/
def body (d : Dialect) (bounds : Bounds) (header : Header) (pool : List Constant) (length : Nat) :
    Reading Function := do
  let c ← get
  let (found, error) := match code d header.locals pool bounds c length with
    | .ok found => (found, none)
    | .error e => (e.before, some e.error)
  let f : Function := {
    header, constants := pool, instructions := found, codeOffset := c.offset, codeLength := length
    error }
  if c.rest.length < length then
    set (c.advance c.rest.length)
    return f
  else
    set (c.advance length)
    if d.lineWidth = 0 then return f
    else
      let boundaries := if error.isNone then some (found.map (·.offset)) else none
      let lines ← lineTable d boundaries
      return { f with
        lines
        instructions := if error.isNone then applyLines found lines else found }

/-- Decodes one function. -/
def function (d : Dialect) (bounds : Bounds) (functionCount index : Nat) : Reading Function := do
  let h ← header d index
  let pool ← constants d functionCount
  let length ← Reading.uint 4 "code length"
  body d bounds h pool length

/-- Decodes up to `n` functions from `index` on. The functions decoded so far are kept when one
cannot be framed, and when the code of one runs past the payload. -/
def functions (d : Dialect) (bounds : Bounds) (functionCount : Nat) :
    Nat → Nat → Cursor → List Function × Option ScriptFault × Cursor
  | 0, _, c => ([], none, c)
  | n + 1, index, c =>
    match (function d bounds functionCount index).runFrom c with
    | (.error e, c) => ([], some (.framing e), c)
    | (.ok f, c) =>
      match f.error with
      | some e =>
        if c.offset < f.codeOffset + f.codeLength then ([f], some (.overrun e), c)
        else
          let (rest, fault, c) := functions d bounds functionCount n (index + 1) c
          (f :: rest, fault, c)
      | none =>
        let (rest, fault, c) := functions d bounds functionCount n (index + 1) c
        (f :: rest, fault, c)

/-- What stands before the functions. -/
structure Preamble where
  functionCount : Nat := 0
  baseClass : String := ""
  className : String := ""

/-- Reads what stands before the functions, keeping what was read when a field is broken. -/
def preamble (d : Dialect) (c : Cursor) : Preamble × Option DecodeError × Cursor :=
  match (Reading.uint (d.operandWidth .count) "function count").runFrom c with
  | (.error e, c) => ({}, some e, c)
  | (.ok functionCount, c) =>
    match (Reading.string "extends clause").runFrom c with
    | (.error e, c) => ({ functionCount }, some e, c)
    | (.ok baseClass, c) =>
      if d.supports "class_name" then
        match (Reading.string "class name").runFrom c with
        | (.error e, c) => ({ functionCount, baseClass }, some e, c)
        | (.ok className, c) => (⟨functionCount, baseClass, className⟩, none, c)
      else (⟨functionCount, baseClass, ""⟩, none, c)

end Decode

/-- Decodes a payload. -/
def Script.decode (d : Dialect) (payload : List UInt8) (bounds : Bounds := {}) : Script :=
  match Decode.preamble d (Cursor.ofBytes payload) with
  | (p, some e, _) =>
    { dialect := d, baseClass := p.baseClass, className := p.className
      functionCount := p.functionCount, fault := some (.header e) }
  | (p, none, c) =>
    let count := match bounds.functions with
      | some n => min p.functionCount n
      | none => p.functionCount
    let (found, fault, c) := Decode.functions d bounds p.functionCount count 0 c
    let bounded := bounds.functions.isSome || bounds.codeBytes.isSome
    let fault :=
      if fault.isNone && !bounded && !c.atEnd then
        some (.trailing ⟨.trailing c.remaining, c.offset⟩)
      else fault
    { dialect := d, baseClass := p.baseClass, className := p.className
      functionCount := p.functionCount, functions := found, fault }

end Unscript
