import Unscript.Decompilation.Result

/-!
# Reports

A report sums up a batch of units: how many ended how, where their source text was written, and
which inputs could not be used. A key is shown by its first characters only.

* `Report.toText` and `Report.toJson` are the two forms of a report.
-/

namespace Unscript

open Number (Double)

/-- A report on a batch of units. `outputs` holds the target of a unit by the name of the unit. -/
structure Report where
  results : List UnitResult := []
  key : Option String := none
  duration : Double := Double.ofRat 0
  outputs : List (String × Json) := []
  errors : List String := []

namespace Report

/-- Adds a unit and the target of its source text. -/
def add (r : Report) (u : UnitResult) (output : Option String) : Report :=
  { r with
    results := r.results ++ [u]
    outputs := match output with
      | some target => Json.insert u.name (.text target) r.outputs
      | none => r.outputs }

/-- Whether all went well. -/
def ok (r : Report) : Bool :=
  r.errors.isEmpty && r.results.all (·.ok)

/-- How many functions ended how. -/
def functionCounts (r : Report) : Counts :=
  FunctionStatus.all.map fun s =>
    (s, (r.results.flatMap (·.functions)).countP (·.status == s))

/-- How many units ended how, in the order in which the ends first occur. -/
def unitCounts (r : Report) : List (String × Nat) :=
  let ends := r.results.map (·.status.text)
  ends.eraseDups.map fun s => (s, ends.count s)

/-- The beginning of the key and its length. -/
def maskedKey (r : Report) : Option String :=
  (r.key.filter fun k => !k.isEmpty).map fun k =>
    let shown := String.ofList (k.toList.take 6)
    s!"{shown}... (len={k.length})"

/-- Names with their counts. -/
def countList (counts : List (String × Nat)) : String :=
  ", ".intercalate (counts.map fun c => s!"{c.1} {c.2}")

/-- The target of a unit, if it has one. -/
def outputOf (r : Report) (u : UnitResult) : Option String :=
  match r.outputs.lookup u.name with
  | some (.text target) => if target.isEmpty then none else some target
  | _ => none

/-- The report for people. -/
def toText (r : Report) : String :=
  let units := r.unitCounts.mergeSort fun a b => a.1 ≤ b.1
  let ends := countList units
  let functions := countList (r.functionCounts.map fun c => (c.1.text, c.2))
  let elapsed := r.duration.fixed 2
  "\n".intercalate ([
    s!"Units: {r.results.length}" ++ if units.isEmpty then "" else s!" ({ends})",
    s!"Functions: {functions}"] ++
    (r.maskedKey.map ("Script key: " ++ ·)).toList ++
    [s!"Elapsed: {elapsed}s"] ++
    r.results.flatMap (fun u => ["", u.toText] ++ ((r.outputOf u).map ("  -> " ++ ·)).toList) ++
    if r.errors.isEmpty then [] else ["", "Errors:"] ++ r.errors.map ("  - " ++ ·))

/-- The report as an object. -/
def toJson (r : Report) : Json :=
  .object [("ok", .bool r.ok), ("script_key_used", Json.ofOption .text r.maskedKey),
    ("duration", .real (r.duration.roundPlaces 6)),
    ("units", .object (r.unitCounts.map fun c => (c.1, .ofNat c.2))),
    ("functions", r.functionCounts.toJson),
    ("results", .array (r.results.map (·.toJson false))),
    ("outputs", .object r.outputs), ("errors", Json.texts r.errors)]

end Report

end Unscript
