import Unscript.Dialect.Id
import Unscript.Number.Decimal

/-!
# Registry data

A registry is written down as the operations with their stack effects, the known features, a few
eras with full encodings, and a chain of entries: an entry names the entry it is based on and what
changed. Counts may be written as numbers or as decimal text.

* `Source` is such data; `Source.extend` appends entries.
* `Count.value` is the integer that a count stands for.
-/

namespace Unscript.Registry

open Number (Double)

/-- A count as it is written down. -/
inductive Count where
  | int (n : Int)
  | real (d : Double)
  | text (s : String)
  | other
  deriving DecidableEq, Repr

/-- Why a count is no integer. -/
inductive CountFault where
  | noNumber
  | notFinite
  | noCount
  deriving DecidableEq, Repr

/-- The integer part of a finite number. -/
def truncated (d : Double) : Int :=
  let f := d.magnitude.fraction
  let n : Int := (f.1 / f.2 : Nat)
  if d.isNegative then -n else n

/-- The integer that a count stands for: a fraction is dropped and a text is read as a decimal
numeral. -/
def Count.value : Count → Except CountFault Int
  | .int n => .ok n
  | .real d =>
    if d.isNaN then .error .noNumber
    else if d.isInfinite then .error .notFinite
    else .ok (truncated d)
  | .text s =>
    match Text.readInt? 10 s with
    | some n => .ok n
    | none => .error .noNumber
  | .other => .error .noCount

/-- An operation by its mnemonic. -/
structure OperationEntry where
  mnemonic : String
  operands : List String
  pops : Count
  pushes : Count
  variadic : List (String × Int)
  transfer : String
  deriving Repr

/-- An era: a full encoding. A field that is missing is `none`. -/
structure EraEntry where
  name : String
  engineMajor : Count
  variantMajor : Count
  lineWidth : Count
  opcodes : Option (List (Option String))
  widths : Option (List (String × Count))
  constants : Option (List (String × Count))
  tags : Option (List (String × Int))
  builtins : List String
  deriving Repr

/-- A builtin function to insert, after another or at the end. -/
structure Insertion where
  name : Option String
  after : Option String
  deriving Repr

/-- A change of the table of builtin functions: removals first, then renamings, then
insertions. -/
structure BuiltinChange where
  remove : List String
  rename : List (String × String)
  insert : List Insertion
  deriving Repr

/-- A change of the set of features: additions first, then removals. -/
structure FeatureChange where
  add : List String
  remove : List String
  deriving Repr

/-- A dialect, by its changes from the one it is based on. A field that is missing is `none`. -/
structure Entry where
  commit : Option Key
  base : Option Key
  era : Option String
  release : String
  date : String
  summary : String
  format : Option Count
  builtins : BuiltinChange
  features : FeatureChange
  deriving Repr

/-- The data of a registry. A field that is missing is `none`. -/
structure Source where
  operations : Option (List OperationEntry)
  features : Option (List String)
  gates : List (String × String)
  eras : Option (List EraEntry)
  entries : Option (List Entry)
  deriving Repr

/-- The data with further entries at the end. -/
def Source.extend (s : Source) (more : List Entry) : Source :=
  { s with entries := some (s.entries.getD [] ++ more) }

end Unscript.Registry
