import Unscript.Proofs.Source.Literals

/-!
# What expressions say

An expression says something by its operators, casts, attributes, indices, calls, arrays and
dictionaries; its leaves and callees are known by their texts.

* `Source.Scope.phrase` is what an expression says. A literal below zero is the negation of the one
  above, and the short form of a path is the call that gets the node.
* `Source.Scope.leaves` are the texts of the leaves of an expression.
* `Source.Scope.Named`: everything that an expression refers to exists, and its names are plain.
-/

namespace Unscript.Source

/-- A literal without its sign. -/
def unsigned (text : String) : String :=
  match text.toList with
  | '-' :: cs => String.ofList cs
  | _ => text

/-- A literal with its sign as an operator. -/
def Phrase.signed (text : String) : Phrase :=
  if text.startsWith "-" then .unary .neg (.leaf (unsigned text)) else .leaf text

namespace Scope

variable (s : Scope)

/-- The text of a constant. -/
def constantText (index : Nat) : String :=
  ((s.constant index >>= s.literal).toOption).getD ""

/-- The text of a name. -/
def nameText (index : Nat) : String :=
  (s.identifier index).toOption.getD ""

/-- The text of a builtin function. -/
def builtinText (index : Nat) : String :=
  ((s.dialect.builtinName? index).filter fun name => !name.isEmpty).getD s!"__builtin_{index}"

/-- The short form of a call, if it has one. -/
def shortPath? (name : Nat) (args : List Expr) : Option String :=
  (s.nodePath? name args).toOption.join

mutual

/-- What an expression says. -/
def phrase : Expr → Phrase
  | .const index => .signed (s.constantText index)
  | .bool b => .leaf (if b then "true" else "false")
  | .slot slot => .leaf (s.names.name slot)
  | .self => .leaf "self"
  | .member name | .global name => .leaf (s.nameText name)
  | .attr obj name => .attr (phrase obj) (s.nameText name)
  | .index obj key => .index (phrase obj) (phrase key)
  | .binary op left right => .binary op (phrase left) (phrase right)
  | .unary op operand => .unary op (phrase operand)
  | .cast value name => .cast (phrase value) (s.nameText name)
  | .method obj name args =>
    let short := decide (obj = .self) && (s.shortPath? name args).isSome
    let callee := if short then .leaf (s.nameText name) else .attr (phrase obj) (s.nameText name)
    .apply callee (phrases args)
  | .group (.call name) args => .apply (.leaf (s.nameText name)) (phrases args)
  | .group (.builtin index) args => .apply (.leaf (s.builtinText index)) (phrases args)
  | .group .array items => .array (phrases items)
  | .group .dictionary items => .dictionary (phrases items)
  | .group .yield args => .apply (.leaf "yield") (phrases args)

/-- What expressions say. -/
def phrases : List Expr → List Phrase
  | [] => []
  | e :: es => phrase e :: phrases es

end

theorem phrase_const (s : Scope) (index : Nat) :
    s.phrase (.const index) = .signed (s.constantText index) := by
  rw [phrase]

theorem phrases_length (s : Scope) (es : List Expr) : (s.phrases es).length = es.length := by
  induction es with
  | nil => rfl
  | cons e es ih => rw [phrases, List.length_cons, List.length_cons, ih]

/-- The texts of leaves that an expression has itself, without its parts. -/
def ownLeaves : Expr → List String
  | .const index => [unsigned (s.constantText index)]
  | .bool b => [if b then "true" else "false"]
  | .slot slot => [s.names.name slot]
  | .self => ["self"]
  | .member name | .global name | .attr _ name | .cast _ name => [s.nameText name]
  | .method _ name args | .group (.call name) args =>
    s.nameText name :: (s.shortPath? name args).toList
  | .group (.builtin index) _ => [s.builtinText index]
  | .group .yield _ => ["yield"]
  | _ => []

/-- The texts of the leaves of an expression. -/
def leaves (e : Expr) : List String :=
  e.walk.flatMap s.ownLeaves

/-- An index that leads to a plain name. -/
def IsName (index : Nat) : Prop :=
  ∃ name, s.identifier index = .ok name ∧ isPlain name = true

/-- What an expression itself refers to exists, and its names are plain. -/
def Refers : Expr → Prop
  | .const index => ∃ c, s.constant index = .ok c ∧ s.Writable c
  | .slot slot => isPlain (s.names.name slot) = true
  | .member name | .global name | .attr _ name | .cast _ name | .method _ name _
  | .group (.call name) _ => s.IsName name
  | .group (.builtin index) _ =>
    ∀ name, s.dialect.builtinName? index = some name → name ≠ "" → isPlain name = true
  | .group .dictionary items => 2 ∣ items.length
  | _ => True

/-- Everything that an expression refers to exists, and its names are plain. -/
def Named (e : Expr) : Prop :=
  ∀ part ∈ e.walk, s.Refers part

end Scope

/-! ## Parts -/

theorem mem_walk_self (e : Expr) : e ∈ e.walk := by
  rw [Expr.walk_eq_cons]
  exact List.mem_cons_self

theorem mem_walk_of_mem_children {e child part : Expr} (hc : child ∈ e.children)
    (h : part ∈ child.walk) : part ∈ e.walk := by
  rw [Expr.walk_eq_cons]
  exact List.mem_cons_of_mem _ (List.mem_flatMap.mpr ⟨child, hc, h⟩)

namespace Scope.Named

variable {s : Scope} {e : Expr}

theorem here (h : s.Named e) : s.Refers e :=
  h e (mem_walk_self e)

theorem of_children (h : s.Refers e) (hchildren : ∀ c ∈ e.children, s.Named c) : s.Named e := by
  intro part hpart
  rw [Expr.walk_eq_cons] at hpart
  rcases List.mem_cons.mp hpart with rfl | hpart
  · exact h
  · obtain ⟨c, hc, hpart⟩ := List.mem_flatMap.mp hpart
    exact hchildren c hc part hpart

theorem child {child : Expr} (h : s.Named e) (hc : child ∈ e.children) : s.Named child :=
  fun part hpart => h part (mem_walk_of_mem_children hc hpart)

end Scope.Named

/-- What an expression refers to exists, its names are plain, and its leaves are given ones. -/
def Scope.Covers (s : Scope) (leaves : List String) (e : Expr) : Prop :=
  ∀ part ∈ e.walk, s.Refers part ∧ s.ownLeaves part ⊆ leaves

namespace Scope.Covers

variable {s : Scope} {leaves : List String}

theorem here {e : Expr} (h : s.Covers leaves e) : s.Refers e ∧ s.ownLeaves e ⊆ leaves :=
  h e (mem_walk_self e)

theorem leaf {e : Expr} (h : s.Covers leaves e) {t : String} (ht : t ∈ s.ownLeaves e) :
    t ∈ leaves :=
  h.here.2 ht

theorem child {e child : Expr} (h : s.Covers leaves e) (hc : child ∈ e.children) :
    s.Covers leaves child :=
  fun part hpart => h part (mem_walk_of_mem_children hc hpart)

end Scope.Covers

end Unscript.Source
