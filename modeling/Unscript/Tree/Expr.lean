/-!
# Expressions

Expressions name constants and identifiers by their index in the constant pool of the function, and
locals by their slot. Operators are known by the mnemonics of the operations that apply them.

* `Expr.walk` visits an expression and its parts, outermost first.
* `Expr.negate` is the logical negation, which never stacks two negations.
* `Expr.same_iff` says that expressions are compared by their structure.
-/

namespace Unscript

/-- An operator on two values. -/
inductive BinaryOp where
  | add
  | sub
  | mul
  | div
  | mod
  | bitAnd
  | bitOr
  | bitXor
  | shl
  | shr
  | eq
  | ne
  | lt
  | le
  | gt
  | ge
  | and
  | or
  | isIn
  | isA
  deriving DecidableEq, Repr

namespace BinaryOp

/-- All operators on two values. -/
def all : List BinaryOp :=
  [.add, .sub, .mul, .div, .mod, .bitAnd, .bitOr, .bitXor, .shl, .shr, .eq, .ne, .lt, .le, .gt, .ge,
    .and, .or, .isIn, .isA]

/-- The mnemonic of the operation that applies an operator. -/
def mnemonic : BinaryOp → String
  | .add => "ADD"
  | .sub => "SUB"
  | .mul => "MUL"
  | .div => "DIV"
  | .mod => "MOD"
  | .bitAnd => "BIT_AND"
  | .bitOr => "BIT_OR"
  | .bitXor => "BIT_XOR"
  | .shl => "SHL"
  | .shr => "SHR"
  | .eq => "EQ"
  | .ne => "NE"
  | .lt => "LT"
  | .le => "LE"
  | .gt => "GT"
  | .ge => "GE"
  | .and => "AND"
  | .or => "OR"
  | .isIn => "IN"
  | .isA => "IS"

/-- The operator of a mnemonic. -/
def ofMnemonic? (m : String) : Option BinaryOp :=
  all.find? fun op => op.mnemonic == m

theorem ofMnemonic?_mnemonic (op : BinaryOp) : ofMnemonic? op.mnemonic = some op := by
  cases op <;> decide

end BinaryOp

/-- An operator on one value. -/
inductive UnaryOp where
  | neg
  | not
  | bitNot
  deriving DecidableEq, Repr

namespace UnaryOp

/-- All operators on one value. -/
def all : List UnaryOp := [.neg, .not, .bitNot]

/-- The mnemonic of the operation that applies an operator. -/
def mnemonic : UnaryOp → String
  | .neg => "NEG"
  | .not => "NOT"
  | .bitNot => "BIT_NOT"

/-- The operator of a mnemonic. -/
def ofMnemonic? (m : String) : Option UnaryOp :=
  all.find? fun op => op.mnemonic == m

theorem ofMnemonic?_mnemonic (op : UnaryOp) : ofMnemonic? op.mnemonic = some op := by
  cases op <;> decide

end UnaryOp

/-- What a group of expressions is for: arguments of a builtin function, arguments of a function of
the script itself, items of an array, keys and values of a dictionary in turn, or what a coroutine
waits for. -/
inductive Grouping where
  | builtin (index : Nat)
  | call (name : Nat)
  | array
  | dictionary
  | yield
  deriving DecidableEq, Repr

/-- An expression. -/
inductive Expr where
  | const (index : Nat)
  | bool (b : Bool)
  | slot (slot : Nat)
  | self
  | member (name : Nat)
  | global (name : Nat)
  | attr (obj : Expr) (name : Nat)
  | index (obj key : Expr)
  | binary (op : BinaryOp) (left right : Expr)
  | unary (op : UnaryOp) (operand : Expr)
  | cast (value : Expr) (typeName : Nat)
  | method (obj : Expr) (name : Nat) (args : List Expr)
  | group (of : Grouping) (items : List Expr)
  deriving Repr, Inhabited

namespace Expr

/-- The expressions that an expression is made of. -/
def children : Expr → List Expr
  | .attr obj _ => [obj]
  | .index obj key => [obj, key]
  | .binary _ left right => [left, right]
  | .unary _ operand => [operand]
  | .cast value _ => [value]
  | .method obj _ args => obj :: args
  | .group _ items => items
  | _ => []

/-- The expression and all its parts, outermost first and from left to right. -/
def walk : Expr → List Expr
  | .attr obj name => .attr obj name :: obj.walk
  | .index obj key => .index obj key :: (obj.walk ++ key.walk)
  | .binary op left right => .binary op left right :: (left.walk ++ right.walk)
  | .unary op operand => .unary op operand :: operand.walk
  | .cast value name => .cast value name :: value.walk
  | .method obj name args => .method obj name args :: (obj.walk ++ walkAll args)
  | .group of items => .group of items :: walkAll items
  | e => [e]
where
  walkAll : List Expr → List Expr
  | [] => []
  | e :: es => e.walk ++ walkAll es

theorem walkAll_eq_flatMap (es : List Expr) : walk.walkAll es = es.flatMap walk := by
  induction es with
  | nil => rfl
  | cons e es ih => simp [walk.walkAll, ih]

theorem walk_eq_cons (e : Expr) : e.walk = e :: e.children.flatMap walk := by
  cases e <;> simp [walk, children, walkAll_eq_flatMap]

/-- The logical negation. -/
def negate : Expr → Expr
  | .unary .not operand => operand
  | .bool b => .bool !b
  | e => .unary .not e

/-- Whether evaluating the expression alone, without its parts, can run no code of the script. -/
def isSimple : Expr → Bool
  | .cast _ _ | .method _ _ _ | .group _ _ => false
  | _ => true

/-- Whether evaluating the expression can run no code of the script. -/
def isPure (e : Expr) : Bool :=
  e.walk.all isSimple

/-- The slot of a local. -/
def slot? : Expr → Option Nat
  | .slot s => some s
  | _ => none

/-- The slots of the locals that the expression reads, in order. -/
def slotsRead (e : Expr) : List Nat :=
  e.walk.filterMap slot?

/-- Whether the expression is a constant of the pool. -/
def isConst : Expr → Bool
  | .const _ => true
  | _ => false

/-- Whether two expressions are made alike. -/
def same : Expr → Expr → Bool
  | .const i, .const j => i == j
  | .bool a, .bool b => a == b
  | .slot i, .slot j => i == j
  | .self, .self => true
  | .member i, .member j => i == j
  | .global i, .global j => i == j
  | .attr a i, .attr b j => a.same b && i == j
  | .index a k, .index b l => a.same b && k.same l
  | .binary op a c, .binary op' b d => op == op' && a.same b && c.same d
  | .unary op a, .unary op' b => op == op' && a.same b
  | .cast a i, .cast b j => a.same b && i == j
  | .method a i as, .method b j bs => a.same b && i == j && sameAll as bs
  | .group g as, .group h bs => g == h && sameAll as bs
  | _, _ => false
where
  sameAll : List Expr → List Expr → Bool
  | [], [] => true
  | a :: as, b :: bs => a.same b && sameAll as bs
  | _, _ => false

mutual

theorem same_iff : ∀ {a b : Expr}, a.same b = true ↔ a = b
  | .const _, b | .bool _, b | .slot _, b | .self, b | .member _, b | .global _, b => by
    cases b <;> simp [same]
  | .attr a _, b => by
    cases b <;> simp [same, @same_iff a]
  | .index a k, b => by
    cases b <;> simp [same, @same_iff a, @same_iff k]
  | .binary _ a c, b => by
    cases b <;> simp [same, @same_iff a, @same_iff c, and_assoc]
  | .unary _ a, b => by
    cases b <;> simp [same, @same_iff a]
  | .cast a _, b => by
    cases b <;> simp [same, @same_iff a]
  | .method a _ as, b => by
    cases b <;> simp [same, @same_iff a, @sameAll_iff as, and_assoc]
  | .group _ as, b => by
    cases b <;> simp [same, @sameAll_iff as]

theorem sameAll_iff : ∀ {as bs : List Expr}, same.sameAll as bs = true ↔ as = bs
  | [], bs => by
    cases bs <;> simp [same.sameAll]
  | a :: as, bs => by
    cases bs <;> simp [same.sameAll, @same_iff a, @sameAll_iff as]

end

instance : DecidableEq Expr := fun a b =>
  decidable_of_iff (a.same b = true) same_iff

end Expr

end Unscript
