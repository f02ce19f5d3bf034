import Unscript.Dialect.Basic
import Unscript.Number.Decimal
import Unscript.Text.Quoted

/-!
# Constants

The literals of a function stand in its constant pool and are referred to by index. A resource is
a path to load, a subscript the index of another function of the unit.

* `Constant.quoted` is a constant as listings show it and `Constant.plain` as it is inserted into
  a line.
-/

namespace Unscript

open Number (Double)

/-- A literal. `foreign` has a kind that no encoding provides for. -/
inductive Constant where
  | nil
  | bool (b : Bool)
  | int (n : Int)
  | float (d : Double)
  | string (s : String)
  | resource (path : String)
  | subscript (index : Nat)
  | foreign (kind : String)
  deriving DecidableEq, Repr, Inhabited

namespace Constant

/-- The name of a constant's kind. -/
def kindName : Constant → String
  | .nil => ConstantKind.nil.text
  | .bool _ => ConstantKind.bool.text
  | .int _ => ConstantKind.int.text
  | .float _ => ConstantKind.float.text
  | .string _ => ConstantKind.string.text
  | .resource _ => ConstantKind.resource.text
  | .subscript _ => ConstantKind.subscript.text
  | .foreign kind => kind

/-- Whether the constant is a string. -/
def isString : Constant → Bool
  | .string _ => true
  | _ => false

/-- The constant as listings show it, a text in quotes. -/
def quoted : Constant → String
  | .nil | .foreign _ => "None"
  | .bool b => if b then "True" else "False"
  | .int n => toString n
  | .float d => d.text
  | .string s | .resource s => Text.quoted s
  | .subscript i => toString i

/-- The constant without quotes. -/
def plain : Constant → String
  | .string s | .resource s => s
  | c => c.quoted

/-- Whether two constants can share an index: floating point numbers are compared as numbers. A NaN
that is asked for is taken as another one than those before. -/
def same : Constant → Constant → Bool
  | .float a, .float b => a.same b
  | a, b => a == b

end Constant

end Unscript
