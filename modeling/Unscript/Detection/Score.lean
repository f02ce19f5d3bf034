import Unscript.Number.Decimal
import Unscript.Script.Decode

/-!
# Scores

A dialect is probed by decoding the beginning of a unit with it. Every probed function counts one
point when it decodes without error and all its operations are legal; otherwise it counts half the
share of clean instructions. The score is the mean over the probed functions.

* `Score.exact` is the score as a rational number.
* `Score.ofUnit` is the score in floating point numbers, each step rounded.
-/

namespace Unscript

open Number (Double)

/-- How much of a unit is probed: bytes of code in each function, and functions. -/
structure Probe where
  codeBytes : Nat := 512
  functions : Nat := 8
  deriving DecidableEq, Repr

namespace Score

/-- The count of instructions whose operations a dialect cannot have. -/
def illegalCount (d : Dialect) (f : Function) : Nat :=
  f.instructions.countP fun i => !d.isLegal i.mnemonic

/-- Whether a function has no error and only legal operations. -/
def isClean (d : Dialect) (f : Function) : Bool :=
  f.complete && illegalCount d f == 0

/-- The points of a function. -/
def points (d : Dialect) (f : Function) : Rat :=
  if isClean d f then 1
  else
    let count := f.instructions.length
    ((count - illegalCount d f : Nat) : Rat) / 2 / (count + 1 : Nat)

/-- The score of a decoded unit, given how to add and to divide. -/
def mean {α : Type} (zero one : α) (add : α → Rat → α) (divide : α → Nat → α) (probe : Probe)
    (s : Script) : α :=
  if s.fault.isSome && s.functions.isEmpty then zero
  else
    match min s.functionCount probe.functions with
    | 0 => if s.fault.isNone then one else zero
    | probed => divide (s.functions.foldl (fun total f => add total (points s.dialect f)) zero) probed

/-- The score of a decoded unit as a rational number. -/
def exact (probe : Probe) (s : Script) : Rat :=
  mean 0 1 (· + ·) (fun total n => total / (n : Rat)) probe s

/-- The score of a decoded unit; points, sums and the quotient are rounded. -/
def rounded (probe : Probe) (s : Script) : Double :=
  mean (Double.ofRat 0) (Double.ofRat 1)
    (fun total p => Double.ofRat (total.toRat + (Double.ofRat p).toRat))
    (fun total n => Double.ofRat (total.toRat / (n : Rat))) probe s

/-- The unit as far as it is probed. -/
def probed (d : Dialect) (probe : Probe) (payload : List UInt8) : Script :=
  Script.decode d payload ⟨some probe.codeBytes, some probe.functions⟩

/-- The score of a payload with a dialect. -/
def ofUnit (d : Dialect) (probe : Probe) (payload : List UInt8) : Double :=
  rounded probe (probed d probe payload)

end Score

end Unscript
