import Unscript.Diagnostic
import Unscript.Script.Function

/-!
# Decoded units as JSON

* `Script.toJson` describes a unit with its functions, constants and instructions.
-/

namespace Unscript

/-- A constant as kind and value. -/
def Constant.toJson (c : Constant) : Json :=
  let value : Json := match c with
    | .nil | .foreign _ => .null
    | .bool b => .bool b
    | .int n => .int n
    | .float d => .real d
    | .string s | .resource s => .text s
    | .subscript i => .ofNat i
  .object [("kind", .text c.kindName), ("value", value)]

/-- Describes a header. -/
def Header.toJson (h : Header) : Json :=
  .object [
    ("index", .ofNat h.index),
    ("name", .text h.displayName),
    ("argument_count", .ofNat h.arguments),
    ("local_count", .ofNat h.locals),
    ("stack_size", .ofNat h.stack),
    ("static", .bool h.isStatic),
    ("local_names", .texts h.localNames)]

/-- Describes an instruction. -/
def Instruction.toJson (i : Instruction) : Json :=
  .object ([
    ("offset", .ofNat i.offset),
    ("opcode", .ofNat i.opcode),
    ("mnemonic", .text i.mnemonic),
    ("operands", .array (i.operands.map .ofNat)),
    ("size", .ofNat i.size),
    ("stack_delta", .int i.stackDelta)] ++ Json.optional "line" Json.ofNat i.line)

/-- Describes a function. -/
def Function.toJson (f : Function) : Json :=
  .object ([
    ("header", f.header.toJson),
    ("constants", .array (f.constants.map (·.toJson))),
    ("instructions", .array (f.instructions.map (·.toJson))),
    ("code_offset", .ofNat f.codeOffset),
    ("code_length", .ofNat f.codeLength),
    ("complete", .bool f.complete)] ++
    Json.optional "error" (fun (e : DecodeError) => e.diagnostic.toJson) f.error)

/-- Describes a unit. -/
def Script.toJson (s : Script) : Json :=
  .object ([
    ("version", .text s.dialect.id),
    ("extends", .text s.baseClass),
    ("class_name", .text s.className),
    ("function_count", .ofNat s.functionCount),
    ("functions", .array (s.functions.map (·.toJson))),
    ("complete", .bool s.complete)] ++
    Json.optional "error" (fun (e : DecodeError) => e.diagnostic.toJson) s.error?)

end Unscript
