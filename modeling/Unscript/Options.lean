import Unscript.Detection.Basic
import Unscript.Structuring.Walk

/-!
# Options

The settings of a run. They are given by name, as members of a JSON object; a dash in a name counts
as an underscore. Settings are shown as they were given, integers or not.

* `Options.set` changes settings and checks the numbers with a range, in a fixed order.
* `Options.usable` checks the kinds of the others, which matter to a run only.
* `Options.ofMembers` reads settings, leaving out those it does not know.
-/

namespace Unscript

open Number (Double Numeric)

/-- The settings of a run. `given` are those that were given, as they were given. -/
structure Options where
  heuristic : Bool := false
  prefixLimit : Numeric := .int 512
  probeFunctions : Numeric := .int 8
  minScore : Numeric := .real (Double.ofRat (3 / 4))
  prefer : Option Key := none
  jobs : Numeric := .int 1
  matchMinCases : Numeric := .int 3
  rawBlockLimit : Numeric := .real Double.half
  maxSteps : Option Numeric := none
  indent : String := "\t"
  provenanceHeader : Bool := false
  given : List (String × Json) := []

/-- What is wrong with a setting. -/
inductive OptionsFault where
  | unknown (name : String)
  | notNumber (name : String)
  | notText (name : String)
  | notPositive (name : String)
  | below (name : String) (least : Nat)
  | outsideUnit (name : String)
  deriving DecidableEq, Repr

namespace OptionsFault

/-- The message about a number out of its range; other faults have none. -/
def message? : OptionsFault → Option String
  | .notPositive name => some s!"{name} must be positive"
  | .below name least => some s!"{name} must be at least {least}"
  | .outsideUnit name => some s!"{name} must be between 0 and 1"
  | .unknown _ | .notNumber _ | .notText _ => none

end OptionsFault

namespace Options

/-- The names of all settings, in the order in which they are shown. -/
def names : List String :=
  ["heuristic", "prefix_limit", "probe_functions", "min_score", "prefer", "jobs",
    "match_min_cases", "raw_block_limit", "max_steps", "indent", "provenance_header"]

/-- The name of a setting as it may be spelled. -/
def canonicalName (spelled : String) : String :=
  spelled.map fun c => if c = '-' then '_' else c

/-! ## Reading values -/

/-- Whether a value switches a setting on. -/
def isOn : Json → Bool
  | .null => false
  | .bool b => b
  | .int n => n != 0
  | .real d => !d.isZero
  | .text s => !s.isEmpty
  | .array items => !items.isEmpty
  | .object members => !members.isEmpty

/-- A value as a number. -/
def numeric? : Json → Option Numeric
  | .int n => some (.int n)
  | .real d => some (.real d)
  | .bool b => some (.int (if b then 1 else 0))
  | _ => none

/-- A value as the key of a preferred dialect. -/
def key? : Json → Option Key
  | .text s => some (.text s)
  | .int n => some (.number n)
  | .bool b => some (.number (if b then 1 else 0))
  | _ => none

/-- What is read from changes. -/
abbrev Read (α : Type) := Except OptionsFault α

/-- A number that passes a test, from the changes or as it was. -/
def readNumber (changes : List (String × Json)) (name : String) (old : Numeric)
    (ok : Numeric → Bool) (fault : String → OptionsFault) : Read Numeric :=
  match changes.lookup name with
  | none => .ok old
  | some v =>
    match numeric? v with
    | none => .error (.notNumber name)
    | some x => if ok x then .ok x else .error (fault name)

/-- A value that may be absent, from the changes or as it was. One of another kind is absent. -/
def readOptional {α : Type} (changes : List (String × Json)) (name : String) (old : Option α)
    (read : Json → Option α) : Option α :=
  match changes.lookup name with
  | none => old
  | some v => read v

/-- A text, from the changes or as it was. A value of another kind leaves it as it was. -/
def readText (changes : List (String × Json)) (name : String) (old : String) : String :=
  match changes.lookup name with
  | some (.text s) => s
  | _ => old

/-- A switch, from the changes or as it was. -/
def readSwitch (changes : List (String × Json)) (name : String) (old : Bool) : Bool :=
  ((changes.lookup name).map isOn).getD old

/-! ## Changing settings -/

/-- Whether a number is not zero or below. -/
def isPositive (x : Numeric) : Bool := !Numeric.le x (.int 0)

/-- Whether a number is not below another. -/
def isAtLeast (least : Nat) (x : Numeric) : Bool := !Numeric.lt x (.int least)

/-- Changes settings. Limits are checked first, then the counts, then the shares. -/
def set (o : Options) (changes : List (String × Json)) : Read Options := do
  match changes.find? fun c => !names.contains c.1 with
  | some c => throw (.unknown c.1)
  | none => pure ()
  let prefixLimit ← readNumber changes "prefix_limit" o.prefixLimit isPositive .notPositive
  let probeFunctions ← readNumber changes "probe_functions" o.probeFunctions isPositive .notPositive
  let jobs ← readNumber changes "jobs" o.jobs (isAtLeast 1) (.below · 1)
  let matchMinCases ← readNumber changes "match_min_cases" o.matchMinCases (isAtLeast 2) (.below · 2)
  let rawBlockLimit ← readNumber changes "raw_block_limit" o.rawBlockLimit Numeric.inUnit
    .outsideUnit
  let minScore ← readNumber changes "min_score" o.minScore Numeric.inUnit .outsideUnit
  return {
    heuristic := readSwitch changes "heuristic" o.heuristic
    provenanceHeader := readSwitch changes "provenance_header" o.provenanceHeader
    prefer := readOptional changes "prefer" o.prefer key?
    maxSteps := readOptional changes "max_steps" o.maxSteps numeric?
    indent := readText changes "indent" o.indent
    prefixLimit, probeFunctions, minScore, jobs, matchMinCases, rawBlockLimit
    given := changes.foldl (fun given c => Json.insert c.1 c.2 given) o.given }

/-- Settings by their canonical names; later ones replace earlier ones. -/
def known (members : List (String × Json)) : List (String × Json) :=
  members.foldl (fun changes m =>
    let name := canonicalName m.1
    if names.contains name then Json.insert name m.2 changes else changes) []

/-- The notes about settings that are not known. -/
def unknownNotes (members : List (String × Json)) : List Note :=
  (members.filter fun m => !names.contains (canonicalName m.1)).map fun m =>
    let name := Text.quoted m.1
    ⟨.warning, .options, s!"ignoring unknown option {name}"⟩

/-- Reads settings. -/
def ofMembers (members : List (String × Json)) : Noted (Read Options) :=
  ⟨({} : Options).set (known members), unknownNotes members⟩

/-- Changes settings, leaving those as they are whose new value is absent. -/
def override (o : Options) (changes : List (String × Json)) : Read Options :=
  o.set (changes.filter fun c =>
    match c.2 with
    | .null => false
    | _ => true)

/-! ## What the settings mean -/

/-- What is wrong with the kind of a value: an indentation is a text, and a budget of steps is a
number unless it counts as none. -/
def misfit? (name : String) (v : Json) : Option OptionsFault :=
  match name, v with
  | "indent", .text _ => none
  | "indent", _ => some (.notText name)
  | "max_steps", v => if isOn v && (numeric? v).isNone then some (.notNumber name) else none
  | _, _ => none

/-- The settings, if a run can use them. -/
def usable (o : Options) : Read Options :=
  match o.given.findSome? fun g => misfit? g.1 g.2 with
  | some e => .error e
  | none => .ok o

/-- How dialects are looked for. -/
def detection (o : Options) : DetectionOptions where
  heuristic := o.heuristic
  probe := ⟨o.prefixLimit.floor.toNat, o.probeFunctions.floor.toNat⟩
  minScore := o.minScore
  prefer := o.prefer

/-- How functions are structured. A budget of no steps counts as none. -/
def structuring (o : Options) : StructureOptions where
  minCases := o.matchMinCases.ceil.toNat
  maxSteps := (o.maxSteps.filter fun x => x.toRat != 0).map fun x => x.floor.toNat

/-- A number as a document. -/
def numberJson : Numeric → Json
  | .int n => .int n
  | .real d => .real d

/-- A key as a document. -/
def keyJson : Key → Json
  | .text s => .text s
  | .number n => .int n
  | .bytes bs => .text (Text.replacingAscii bs)

/-- The settings as an object. -/
def toJson (o : Options) : Json :=
  let shown (name : String) (value : Json) : String × Json :=
    (name, (o.given.lookup name).getD value)
  .object [shown "heuristic" (.bool o.heuristic),
    shown "prefix_limit" (numberJson o.prefixLimit),
    shown "probe_functions" (numberJson o.probeFunctions),
    shown "min_score" (numberJson o.minScore),
    shown "prefer" (Json.ofOption keyJson o.prefer), shown "jobs" (numberJson o.jobs),
    shown "match_min_cases" (numberJson o.matchMinCases),
    shown "raw_block_limit" (numberJson o.rawBlockLimit),
    shown "max_steps" (Json.ofOption numberJson o.maxSteps), shown "indent" (.text o.indent),
    shown "provenance_header" (.bool o.provenanceHeader)]

end Options

end Unscript
