import Unscript.Dialect.Basic
import Unscript.Source.Literal
import Unscript.Source.Names
import Unscript.Tree.Expr

/-!
# Expressions as source text

Operators bind with different strength; an operand that binds weaker than its place needs stands in
parentheses. Operators on two values group to the left.

* `Source.Scope.expr` writes an expression, `Source.Written.within` puts it into a place that
  may need parentheses.
* `Source.Scope.literal` writes a constant.
-/

namespace Unscript

/-- How strong an operator binds. -/
def BinaryOp.strength : BinaryOp → Nat
  | .isA => 90
  | .mul | .div | .mod => 70
  | .add | .sub => 60
  | .shl | .shr => 55
  | .bitAnd => 50
  | .bitXor => 45
  | .bitOr => 40
  | .eq | .ne | .lt | .le | .gt | .ge => 35
  | .isIn => 30
  | .and => 20
  | .or => 15

/-- The sign of an operator. -/
def BinaryOp.symbol : BinaryOp → String
  | .add => "+"
  | .sub => "-"
  | .mul => "*"
  | .div => "/"
  | .mod => "%"
  | .bitAnd => "&"
  | .bitOr => "|"
  | .bitXor => "^"
  | .shl => "<<"
  | .shr => ">>"
  | .eq => "=="
  | .ne => "!="
  | .lt => "<"
  | .le => "<="
  | .gt => ">"
  | .ge => ">="
  | .and => "and"
  | .or => "or"
  | .isIn => "in"
  | .isA => "is"

/-- How strong an operator binds. -/
def UnaryOp.strength : UnaryOp → Nat
  | .bitNot => 85
  | .neg => 80
  | .not => 25

/-- The sign of an operator, with the space that follows a word. -/
def UnaryOp.symbol : UnaryOp → String
  | .neg => "-"
  | .not => "not "
  | .bitNot => "~"

namespace Source

/-- Why an expression cannot be written. -/
inductive Fault where
  | noConstant
  | notString (index : Nat) (kind : String)
  | unknownKind (kind : String)
  deriving DecidableEq, Repr

/-- The message of a fault. -/
def Fault.message : Fault → String
  | .noConstant => "tuple index out of range"
  | .notString index kind => s!"constant {index} is a {kind}, not a string"
  | .unknownKind kind =>
    let name := Text.quoted kind
    s!"unknown constant kind {name}"

/-- The strength of an expression that needs no parentheses anywhere. -/
def atomic : Nat := 100

/-- The strength of a cast. -/
def castStrength : Nat := 90

/-- What the expressions of a function refer to. -/
structure Scope where
  dialect : Dialect
  pool : Array Constant
  functions : Array String
  names : NameTable

/-- An expression in source text with its strength. -/
structure Written where
  text : String
  strength : Nat
  deriving DecidableEq, Repr

namespace Written

/-- The text for a place that needs a strength. -/
def within (w : Written) (needed : Nat) : String :=
  if w.strength < needed then "(" ++ w.text ++ ")" else w.text

/-- A text that needs no parentheses. -/
def atom (text : String) : Written := ⟨text, atomic⟩

end Written

/-- Whether a text begins with the sign of an operator that would run into another one. -/
def beginsWithSign (s : String) : Bool :=
  match s.toList with
  | c :: _ => c == '-' || c == '~'
  | [] => false

/-- An operator before its operand. A sign before a sign is kept apart by parentheses. -/
def prefixed (op : UnaryOp) (operand : String) : String :=
  if op != .not && beginsWithSign operand then op.symbol ++ "(" ++ operand ++ ")"
  else op.symbol ++ operand

/-- Values with commas between them. -/
def commaList (xs : List String) : String :=
  ", ".intercalate xs

/-- Keys and values in turn as the items of a dictionary. -/
def dictionaryItems : List String → List String
  | key :: value :: rest => (key ++ ": " ++ value) :: dictionaryItems rest
  | _ => []

namespace Scope

/-- A constant of the pool. -/
def constant (s : Scope) (index : Nat) : Except Fault Constant :=
  match s.pool[index]? with
  | some c => .ok c
  | none => .error .noConstant

/-- A string constant as an identifier. -/
def identifier (s : Scope) (index : Nat) : Except Fault String := do
  match ← s.constant index with
  | .string text => pure text
  | c => .error (.notString index c.kindName)

/-- A constant as source text. -/
def literal (s : Scope) : Constant → Except Fault String
  | .nil => pure "null"
  | .bool b => pure (if b then "true" else "false")
  | .int n => pure (toString n)
  | .float d => pure (floatLiteral s.dialect.supports d)
  | .string text => pure (stringLiteral text)
  | .resource path => pure ("preload(" ++ stringLiteral path ++ ")")
  | .subscript i => pure (s.functions[i]?.getD s!"func_{i}")
  | .foreign kind => .error (.unknownKind kind)

/-- The short form of a call that gets a node by a literal path, in dialects that have it. -/
def nodePath? (s : Scope) (name : Nat) (args : List Expr) : Except Fault (Option String) :=
  match s.dialect.supports "dollar", args with
  | true, [arg] => do
    if (← s.identifier name) != "get_node" then return none
    match arg with
    | .const index =>
      match ← s.constant index with
      | .string path => return some ("$" ++ if isNodePath path then path else stringLiteral path)
      | _ => return none
    | _ => return none
  | _, _ => pure none

mutual

/-- Writes an expression. -/
def write (s : Scope) : Expr → Except Fault Written
  | .const index => do
    let text ← s.literal (← s.constant index)
    return ⟨text, if text.startsWith "-" then UnaryOp.neg.strength else atomic⟩
  | .bool b => return .atom (if b then "true" else "false")
  | .slot slot => return .atom (s.names.name slot)
  | .self => return .atom "self"
  | .member name | .global name => return .atom (← s.identifier name)
  | .attr obj name => do
    let obj ← s.write obj
    return .atom (obj.within atomic ++ "." ++ (← s.identifier name))
  | .index obj key => do
    let obj ← s.write obj
    return .atom (obj.within atomic ++ "[" ++ (← s.write key).text ++ "]")
  | .binary op left right => do
    let left ← s.write left
    let right ← s.write right
    return ⟨left.within op.strength ++ " " ++ op.symbol ++ " " ++ right.within (op.strength + 1),
      op.strength⟩
  | .unary op operand => do
    let operand ← s.write operand
    return ⟨prefixed op (operand.within op.strength), op.strength⟩
  | .cast value name => do
    let value ← s.write value
    return ⟨value.within castStrength ++ " as " ++ (← s.identifier name), castStrength⟩
  | .method obj name args => do
    match ← (if obj = .self then s.nodePath? name args else pure none) with
    | some path => return .atom path
    | none =>
      let obj ← s.write obj
      let name ← s.identifier name
      return .atom (obj.within atomic ++ "." ++ name ++ "(" ++ commaList (← s.writeAll args) ++ ")")
  | .group (.call name) args => do
    match ← s.nodePath? name args with
    | some path => return .atom path
    | none =>
      let name ← s.identifier name
      return .atom (name ++ "(" ++ commaList (← s.writeAll args) ++ ")")
  | .group (.builtin index) args => do
    let known := (s.dialect.builtinName? index).filter fun name => !name.isEmpty
    let name := known.getD s!"__builtin_{index}"
    return .atom (name ++ "(" ++ commaList (← s.writeAll args) ++ ")")
  | .group .array items => return .atom ("[" ++ commaList (← s.writeAll items) ++ "]")
  | .group .dictionary items => do
    return .atom ("\x7b" ++ commaList (dictionaryItems (← s.writeAll items)) ++ "\x7d")
  | .group .yield args => return .atom ("yield(" ++ commaList (← s.writeAll args) ++ ")")

/-- Writes expressions, each without regard to its place. -/
def writeAll (s : Scope) : List Expr → Except Fault (List String)
  | [] => return []
  | e :: es => do
    let head ← s.write e
    return head.text :: (← s.writeAll es)

end

@[simp] theorem write_bool (s : Scope) (b : Bool) :
    s.write (.bool b) = .ok (.atom (if b then "true" else "false")) := by
  rw [write]
  rfl

@[simp] theorem write_slot (s : Scope) (slot : Nat) :
    s.write (.slot slot) = .ok (.atom (s.names.name slot)) := by
  rw [write]
  rfl

@[simp] theorem write_self (s : Scope) : s.write .self = .ok (.atom "self") := by
  rw [write]
  rfl

/-- An expression as source text. -/
def expr (s : Scope) (e : Expr) : Except Fault String :=
  (·.text) <$> s.write e

end Scope

end Source

end Unscript
