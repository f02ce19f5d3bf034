import Unscript.Script.Decode
import Unscript.Text.Blank

/-!
# Listings

A decoded unit is listed function by function: its constants, its instructions with their operands
explained, and where decoding stopped.

* `Script.listing` is the listing of a unit, `operandText` the explanation of one operand.
-/

namespace Unscript

open Text (hexPadded padRight trimEnd)

/-- An operand explained: a constant with its kind and value, a name with its text, a builtin
function with its name, a jump with its target. -/
def operandText (d : Dialect) (pool : List Constant) (kind : OperandKind) (value : Nat) : String :=
  match kind, pool[value]? with
  | .constant, some c => s!"{value} ({c.kindName}:{c.quoted})"
  | .name, some c => s!"{value} ({c.plain})"
  | .builtin, _ =>
    let name := (d.builtinName? value).getD "None"
    s!"{value} ({name})"
  | .jump, _ => "-> " ++ hexPadded 4 value
  | .slot, _ => s!"local{value}"
  | _, _ => toString value

/-- The operands of an instruction explained, with something between them. -/
def Instruction.operandTexts (d : Dialect) (pool : List Constant) (i : Instruction)
    (between : String) : String :=
  between.intercalate ((i.kinds.zip i.operands).map fun (kind, value) =>
    operandText d pool kind value)

/-- The line of an instruction. -/
def Instruction.listed (d : Dialect) (pool : List Constant) (i : Instruction) : String :=
  let operands := i.operandTexts d pool ", "
  let line := trimEnd ("  " ++ hexPadded 4 i.offset ++ "  " ++ padRight 14 ' ' i.mnemonic ++ " " ++
    operands)
  match i.line with
  | some n => s!"{line}    ; line {n}"
  | none => line

/-- The lines of a function. -/
def Function.listed (d : Dialect) (f : Function) : List String :=
  let h := f.header
  let constants := f.constants.zipIdx.map fun (c, index) =>
    s!"  .const {index} {c.kindName} {c.quoted}"
  ["", s!"func {f.name} args={h.arguments} locals={h.locals} stack={h.stack}"] ++ constants ++
    f.instructions.map (·.listed d f.constants) ++
    match f.error with
    | some e => [s!"  ; incomplete: {e.message}"]
    | none => []

/-- The listing of a unit. -/
def Script.listing (s : Script) : String :=
  let d := s.dialect
  let head := s!"; bytecode {d.id} ({d.release}), {s.functionCount} function(s)"
  let baseClass := if s.baseClass.isEmpty then [] else [s!"; extends {s.baseClass}"]
  let className := if s.className.isEmpty then [] else [s!"; class_name {s.className}"]
  let fault := match s.error? with
    | some e => ["", s!"; unit error: {e.message}"]
    | none => []
  "\n".intercalate (head :: baseClass ++ className ++ s.functions.flatMap (·.listed d) ++ fault) ++
    "\n"

end Unscript
