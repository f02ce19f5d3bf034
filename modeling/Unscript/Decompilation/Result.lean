import Unscript.Detection.Basic
import Unscript.Number.Decimal

/-!
# Results of a run

What was recovered of a unit: the text of every function or why there is none, how sure the
recovery is, and the text of the unit.

* `UnitResult.status` sums a unit up; a unit is fine when all its functions are.
* `UnitResult.toJson` and `UnitResult.toText` report a unit.
-/

namespace Unscript

open Number (Double)

/-- How the recovery of a function ended. -/
inductive FunctionStatus where
  | ok
  | incomplete
  | failed
  deriving DecidableEq, Repr

namespace FunctionStatus

/-- All ends, in the order in which they are counted. -/
def all : List FunctionStatus := [.ok, .incomplete, .failed]

/-- The word for an end. -/
def text : FunctionStatus → String
  | .ok => "Ok"
  | .incomplete => "Incomplete"
  | .failed => "Failed"

end FunctionStatus

/-- What was recovered of a function. -/
structure FunctionResult where
  name : String
  index : Nat
  status : FunctionStatus
  source : Option String := none
  error : Option Diagnostic := none
  confidence : Double := Double.ofRat 0
  instructionCount : Nat := 0
  rawBlocks : Nat := 0
  unreachable : List Nat := []

namespace FunctionResult

/-- Whether a function was recovered in full. -/
def ok (f : FunctionResult) : Bool :=
  f.status == .ok

/-- The result as an object. -/
def toJson (includeSource : Bool) (f : FunctionResult) : Json :=
  .object ([("name", .text f.name), ("index", .ofNat f.index), ("status", .text f.status.text),
    ("confidence", .real f.confidence), ("instruction_count", .ofNat f.instructionCount),
    ("raw_blocks", .ofNat f.rawBlocks)] ++
    (if f.unreachable.isEmpty then [] else
      [("unreachable_blocks", .array (f.unreachable.map .ofNat))]) ++
    Json.optional "error" Diagnostic.toJson f.error ++
    if includeSource then Json.optional "source" Json.text f.source else [])

/-- The line of a function. -/
def toText (f : FunctionResult) : String :=
  let confidence := f.confidence.fixed 2
  let sure := if f.status = .failed then "" else s!" (confidence {confidence})"
  let error := match f.error with
    | some e => s!" - {e.kind}: {e.message}"
    | none => ""
  "  " ++ Text.padLeft 3 ' ' (toString f.index) ++ s!" {f.name}: {f.status.text}" ++ sure ++ error

end FunctionResult

/-- How the recovery of a unit ended. -/
inductive UnitStatus where
  | cancelled
  | failed
  | ok
  | incomplete
  deriving DecidableEq, Repr

/-- The word for an end. -/
def UnitStatus.text : UnitStatus → String
  | .cancelled => "Cancelled"
  | .failed => "Failed"
  | .ok => "Ok"
  | .incomplete => "Incomplete"

/-- Counts of functions by how their recovery ended. -/
abbrev Counts := List (FunctionStatus × Nat)

/-- Counts as an object. -/
def Counts.toJson (c : Counts) : Json :=
  .object (c.map fun x => (x.1.text, .ofNat x.2))

/-- What was recovered of a unit. -/
structure UnitResult where
  name : String
  version : Option String := none
  detection : Option Detection := none
  functions : List FunctionResult := []
  source : Option String := none
  error : Option Diagnostic := none
  warnings : List String := []
  cancelled : Bool := false

namespace UnitResult

/-- Whether a unit was recovered in full. -/
def ok (u : UnitResult) : Bool :=
  u.error.isNone && !u.cancelled && u.functions.all (·.ok)

/-- How the recovery ended. -/
def status (u : UnitResult) : UnitStatus :=
  if u.cancelled then .cancelled
  else if u.source.isNone then .failed
  else if u.ok then .ok
  else .incomplete

/-- How many functions ended how. -/
def counts (u : UnitResult) : Counts :=
  FunctionStatus.all.map fun s => (s, u.functions.countP (·.status == s))

/-- The duration in reports: no time is measured. -/
def noTime : Json := .real (Double.ofRat 0)

/-- The result as an object. -/
def toJson (includeSource : Bool) (u : UnitResult) : Json :=
  .object ([("unit", .text u.name), ("status", .text u.status.text),
    ("version", Json.ofOption .text u.version),
    ("functions", .array (u.functions.map (·.toJson includeSource))),
    ("counts", u.counts.toJson), ("duration", noTime)] ++
    Json.optional "detection" Detection.toJson u.detection ++
    Json.optional "error" Diagnostic.toJson u.error ++
    (if u.warnings.isEmpty then [] else [("warnings", Json.texts u.warnings)]) ++
    if includeSource then Json.optional "source" Json.text u.source else [])

/-- The line of an error. -/
def errorLine (e : Diagnostic) : String :=
  let place := match e.offset with
    | some n => " at " ++ Text.hexOffset n
    | none => ""
  s!"  error: {e.kind}{place}: {e.message}"

/-- The lines of the result. -/
def toText (u : UnitResult) : String :=
  let version := u.version.getD "no version"
  "\n".intercalate ([s!"{u.name}: {u.status.text} ({version})"] ++
    (u.error.map errorLine).toList ++ u.functions.map (·.toText) ++
    u.warnings.map ("  warning: " ++ ·))

end UnitResult

end Unscript
