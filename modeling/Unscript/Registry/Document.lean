import Unscript.Json.Value
import Unscript.Registry.Resolve

/-!
# Registry data as JSON

* `Source.ofJson` reads the data of a registry, `entriesOfJson` a list of further entries.
* `Dialect.toJson` describes a dialect, with its tables if asked.
-/

namespace Unscript

namespace Registry

/-- The members of an object, none for any other document. -/
def members : Json → List (String × Json)
  | .object ms => ms
  | _ => []

/-- The items of an array, none for any other document. -/
def items : Json → List Json
  | .array xs => xs
  | _ => []

/-- The text of a document, empty when it is no text. -/
def textOf : Json → String
  | .text s => s
  | _ => ""

/-- The texts of an array. -/
def textsOf (j : Json) : List String :=
  (items j).map textOf

/-- The count of a document. -/
def Count.ofJson : Json → Count
  | .int n => .int n
  | .bool b => .int (if b then 1 else 0)
  | .real d => .real d
  | .text s => .text s
  | _ => .other

/-- The integer of a document, zero when it has none. -/
def intOf (j : Json) : Int :=
  match (Count.ofJson j).value with
  | .ok n => n
  | .error _ => 0

/-- The key of a document. -/
def keyOf : Json → Key
  | .int n => .number n
  | .bool b => .number (if b then 1 else 0)
  | j => .text (textOf j)

/-- The member of an object, with `null` counted as missing. -/
def present? (j : Json) (key : String) : Option Json :=
  match j.member? key with
  | some .null => none
  | found => found

/-- The member of an object, or `null`. -/
def memberOf (j : Json) (key : String) : Json :=
  (j.member? key).getD .null

/-- The count of a member, or a default. -/
def countOf (j : Json) (key : String) : Count :=
  ((j.member? key).map Count.ofJson).getD (.int 0)

/-- Reads an operation. -/
def operationOfJson (m : String × Json) : OperationEntry where
  mnemonic := m.1
  operands := textsOf (memberOf m.2 "operands")
  pops := countOf m.2 "pops"
  pushes := countOf m.2 "pushes"
  variadic := (members (memberOf m.2 "variadic")).map fun v => (v.1, intOf v.2)
  transfer := ((m.2.member? "flow").map textOf).getD "next"

/-- Reads an era. -/
def eraOfJson (m : String × Json) : EraEntry where
  name := m.1
  engineMajor := countOf m.2 "engine_major"
  variantMajor := countOf m.2 "variant_major"
  lineWidth := countOf m.2 "line_width"
  opcodes := (m.2.member? "opcodes").map fun j => (items j).map fun
    | .text s => some s
    | _ => none
  widths := (m.2.member? "operand_widths").map fun j =>
    (members j).map fun w => (w.1, Count.ofJson w.2)
  constants := (m.2.member? "constants").map fun j =>
    (members j).map fun w => (w.1, Count.ofJson w.2)
  tags := (m.2.member? "constant_tags").map fun j => (members j).map fun t => (t.1, intOf t.2)
  builtins := textsOf (memberOf m.2 "builtins")

/-- Reads a change of the builtin functions. -/
def builtinChangeOfJson (j : Json) : BuiltinChange where
  remove := textsOf (memberOf j "remove")
  rename := (members (memberOf j "rename")).map fun r => (r.1, textOf r.2)
  insert := (items (memberOf j "insert")).map fun i =>
    ⟨(i.member? "name").map textOf, (present? i "after").map textOf⟩

/-- Reads an entry. -/
def entryOfJson (j : Json) : Entry where
  commit := (j.member? "commit").map keyOf
  base := (present? j "base").map keyOf
  era := (j.member? "era").map textOf
  release := textOf (memberOf j "release")
  date := textOf (memberOf j "date")
  summary := textOf (memberOf j "summary")
  format := (j.member? "bytecode").map Count.ofJson
  builtins := builtinChangeOfJson (memberOf j "builtins")
  features :=
    let f := memberOf j "features"
    ⟨textsOf (memberOf f "add"), textsOf (memberOf f "remove")⟩

/-- Reads a list of entries. -/
def entriesOfJson (j : Json) : List Entry :=
  (items j).map entryOfJson

/-- Reads the data of a registry. -/
def Source.ofJson (j : Json) : Source where
  operations := (j.member? "instructions").map fun m => (members m).map operationOfJson
  features := (j.member? "features").map fun
    | .array xs => xs.map textOf
    | m => (members m).map (·.1)
  gates := (members (memberOf j "gated_opcodes")).map fun g => (g.1, textOf g.2)
  eras := (j.member? "eras").map fun m => (members m).map eraOfJson
  entries := (j.member? "versions").map entriesOfJson

end Registry

namespace Operation

/-- Describes an operation. -/
def toJson (op : Operation) : Json :=
  .object ([
    ("mnemonic", .text op.mnemonic),
    ("operands", .texts (op.operands.map (·.text))),
    ("pops", .int op.pops),
    ("pushes", .int op.pushes),
    ("flow", .text op.transfer.text)] ++
    if op.variadic.isEmpty then []
    else [("variadic", .object (op.variadic.map fun v => (v.1.text, .int v.2)))])

end Operation

namespace Dialect

/-- The numbered operations with their codes, in ascending order. -/
def numbered (d : Dialect) : List (Nat × Operation) :=
  d.opcodes.zipIdx.filterMap fun e => e.1.map fun op => (e.2, op)

/-- The kinds of operands in the order of a table of widths. -/
def widthOrder : List OperandKind := [.constant, .name, .slot, .builtin, .argc, .count, .jump]

/-- The widths by name. -/
def widthTable (d : Dialect) : List (String × Int) :=
  ("opcode", (d.opcodeWidth : Int)) ::
    widthOrder.map (fun k => (k.text, (d.operandWidth k : Int))) ++ d.widths.others

/-- The tables of a dialect as members of its description. -/
def tableMembers (d : Dialect) : List (String × Json) := [
  ("opcodes", .object (d.numbered.map fun e => (toString e.1, .text e.2.mnemonic))),
  ("operand_widths", .object (d.widthTable.map fun w => (w.1, .int w.2))),
  ("constants", .object [
    ("int_width", .int d.constants.intWidth),
    ("float_width", .int d.constants.floatWidth),
    ("tags", .object (d.constants.tags.map fun t => (t.1, .int t.2)))]),
  ("line_width", .int d.lineWidth),
  ("builtins", .texts d.builtins)]

/-- Describes a dialect. -/
def toJson (d : Dialect) (tables : Bool := false) : Json :=
  .object ([
    ("version", .text d.id),
    ("tag", .text d.tag),
    ("release", .text d.release),
    ("date", .text d.date),
    ("bytecode", .int d.format),
    ("era", .text d.era),
    ("engine_major", .int d.engineMajor),
    ("summary", .text d.summary),
    ("features", .texts d.features),
    ("builtin_count", .ofNat d.builtins.length)] ++
    if tables then d.tableMembers else [])

/-- The numbered mnemonics that may not occur in the dialect, in ascending order. -/
def illegalMnemonics (d : Dialect) : List String :=
  ((d.numbered.map (·.2.mnemonic)).filter fun m => !d.isLegal m).mergeSort (· ≤ ·)

end Dialect

end Unscript
