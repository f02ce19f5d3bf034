import Unscript.Json.Value
import Unscript.Tree.Node

/-!
# Structured code as documents

Expressions and statements are written as arrays that begin with a word for their form; nodes are
objects that name their construct. A node that holds instructions lists their offsets.

* `Expr.toJson`, `Stmt.toJson` and `Node.toJson` write them.
-/

namespace Unscript

/-- Numbers as an array. -/
def Json.nats (ns : List Nat) : Json := .array (ns.map .ofNat)

namespace Expr

/-- The word for the form of an expression. -/
def word : Expr → String
  | .const _ => "const"
  | .bool _ => "bool"
  | .slot _ => "local"
  | .self => "self"
  | .member _ => "member"
  | .global _ => "global"
  | .attr _ _ => "attr"
  | .index _ _ => "index"
  | .binary _ _ _ => "bin"
  | .unary _ _ => "un"
  | .cast _ _ => "cast"
  | .method _ _ _ => "method"
  | .group (.builtin _) _ => "builtin"
  | .group (.call _) _ => "call"
  | .group .array _ => "array"
  | .group .dictionary _ => "dict"
  | .group .yield _ => "yield"

/-- Documents of keys and values in turn, as pairs. -/
def pairs : List Json → List Json
  | key :: value :: rest => .array [key, value] :: pairs rest
  | _ => []

mutual

/-- What follows the word of an expression. -/
def rest : Expr → List Json
  | .const i | .slot i | .member i | .global i => [.ofNat i]
  | .bool b => [.bool b]
  | .self => []
  | .attr obj name => [.array (.text obj.word :: obj.rest), .ofNat name]
  | .index obj key =>
    [.array (.text obj.word :: obj.rest), .array (.text key.word :: key.rest)]
  | .binary op left right =>
    [.text op.mnemonic, .array (.text left.word :: left.rest),
      .array (.text right.word :: right.rest)]
  | .unary op operand => [.text op.mnemonic, .array (.text operand.word :: operand.rest)]
  | .cast value name => [.array (.text value.word :: value.rest), .ofNat name]
  | .method obj name args =>
    [.array (.text obj.word :: obj.rest), .ofNat name, .array (restAll args)]
  | .group (.builtin i) args => [.ofNat i, .array (restAll args)]
  | .group (.call i) args => [.ofNat i, .array (restAll args)]
  | .group .dictionary items => [.array (pairs (restAll items))]
  | .group .array items => [.array (restAll items)]
  | .group .yield items => [.array (restAll items)]

/-- Documents of expressions. -/
def restAll : List Expr → List Json
  | [] => []
  | e :: es => .array (.text e.word :: e.rest) :: restAll es

end

/-- An expression as a document. -/
def toJson (e : Expr) : Json :=
  .array (.text e.word :: e.rest)

end Expr

namespace Stmt

/-- A statement as a document. -/
def toJson : Stmt → Json
  | .assign target value offset _ =>
    .array [.text "assign", target.toJson, value.toJson, .ofNat offset]
  | .expr e offset residue => .array [.text "expr", e.toJson, .ofNat offset, .bool residue]
  | .assert test offset => .array [.text "assert", test.toJson, .ofNat offset]
  | .breakpoint offset => .array [.text "breakpoint", .ofNat offset]

/-- Statements as a document. -/
def listJson (ss : List Stmt) : Json := .array (ss.map toJson)

end Stmt

/-- The offsets of instructions as a document. -/
def Instruction.offsetsJson (is : List Instruction) : Json :=
  .nats (is.map (·.offset))

/-- A block node as a document. -/
def BlockNode.toJson (b : BlockNode) : Json :=
  .object [("node", .text "block"), ("id", .ofNat b.id),
    ("at", Instruction.offsetsJson b.instructions), ("stmts", Stmt.listJson b.statements)]

/-- A raw node as a document. -/
def RawNode.toJson (r : RawNode) : Json :=
  .object [("node", .text "raw"), ("reason", .text r.reason.text),
    ("id", Json.ofOption .ofNat r.block), ("at", Instruction.offsetsJson r.instructions),
    ("stmts", Json.ofOption Stmt.listJson r.statements), ("term", .text r.ending.text),
    ("value", Json.ofOption Expr.toJson r.value), ("gotos", .nats r.gotos)]

namespace Node

mutual

/-- A node as a document. -/
def toJson : Node → Json
  | .block b => b.toJson
  | .sequence body => .object [("node", .text "seq"), ("body", .array (allJson body))]
  | .ifElse id condition whenTrue whenFalse =>
    .object [("node", .text "if"), ("id", Json.ofOption .ofNat id), ("cond", condition.toJson),
      ("then", .array (allJson whenTrue)), ("else", .array (allJson whenFalse))]
  | .whileLoop condition body header =>
    .object [("node", .text "while"), ("cond", condition.toJson), ("body", .array (allJson body)),
      ("header", Json.ofOption BlockNode.toJson header)]
  | .forLoop iterator element iterable body setup latch =>
    .object [("node", .text "for"), ("iter", .ofNat iterator), ("var", .ofNat element),
      ("over", iterable.toJson), ("body", .array (allJson body)), ("setup", setup.toJson),
      ("latch", latch.toJson)]
  | .matching id subject cases fallback tests =>
    .object [("node", .text "match"), ("id", Json.ofOption .ofNat id),
      ("subject", subject.toJson), ("cases", .array (casesJson cases)),
      ("default", fallbackJson fallback), ("tests", .array (tests.map BlockNode.toJson))]
  | .ret value implicit =>
    .object [("node", .text "return"), ("value", Json.ofOption Expr.toJson value),
      ("implicit", .bool implicit)]
  | .leaveLoop => .object [("node", .text "break")]
  | .nextTurn => .object [("node", .text "continue")]
  | .raw r => r.toJson

/-- Documents of nodes. -/
def allJson : List Node → List Json
  | [] => []
  | n :: ns => n.toJson :: allJson ns

/-- Documents of cases. -/
def casesJson : List (Expr × List Node) → List Json
  | [] => []
  | (pattern, body) :: rest => .array [pattern.toJson, .array (allJson body)] :: casesJson rest

/-- A document of a body that may be absent. -/
def fallbackJson : Option (List Node) → Json
  | none => .null
  | some body => .array (allJson body)

end

/-- A body as a document. -/
def bodyJson (body : List Node) : Json := .array (allJson body)

end Node

end Unscript
