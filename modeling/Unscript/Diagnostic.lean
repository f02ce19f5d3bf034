import Unscript.Bytes.Reader
import Unscript.Json.Value

/-!
# Diagnostics

A failure that ends up in a result is reported by its kind, its message and, where they are known,
the byte offset, the block and the version tag it is about.

* `Diagnostic.toJson` is the report of a failure as members of a JSON object.
-/

namespace Unscript

/-- The report of a failure. -/
structure Diagnostic where
  kind : String
  message : String
  offset : Option Nat := none
  block : Option Nat := none
  tag : Option String := none
  candidates : Option (List String) := none
  deriving DecidableEq, Repr

/-- A member that is left out when there is nothing to report. -/
def Json.optional {α : Type} (key : String) (f : α → Json) : Option α → List (String × Json)
  | some a => [(key, f a)]
  | none => []

namespace Diagnostic

/-- The members beside the kind and the message. -/
def details (d : Diagnostic) : List (String × Json) :=
  Json.optional "byte_offset" Json.ofNat d.offset ++ Json.optional "block_id" Json.ofNat d.block ++
    Json.optional "tag" Json.text d.tag ++ Json.optional "candidates" Json.texts d.candidates

/-- The report as an object. -/
def toJson (d : Diagnostic) : Json :=
  .object ([("kind", .text d.kind), ("message", .text d.message)] ++ d.details)

end Diagnostic

/-- The report of an unreadable byte string. -/
def DecodeError.diagnostic (e : DecodeError) : Diagnostic where
  kind := "DecodeError"
  message := e.message
  offset := some e.offset

end Unscript
