import Unscript.Detection.Score
import Unscript.Diagnostic
import Unscript.Note
import Unscript.Container
import Unscript.Registry.Standard

/-!
# Finding the dialect of a script

A script names its dialect by its tag. When the tag is not registered, the dialects of its format
can be probed; one dialect is chosen when its score is the best and good enough, or when the caller
prefers it among the best.

* `Detection.ofContainer` finds the dialect of a script.
* `Detection.require` is the dialect found, or why there is none.
-/

namespace Unscript

open Number (Double Numeric)

/-- Why no dialect was found. -/
inductive VersionFault where
  | unknown (tag : String)
  | ambiguous (tag : String) (candidates : List String)
  deriving DecidableEq, Repr

namespace VersionFault

/-- The report of a fault. -/
def diagnostic : VersionFault → Diagnostic
  | .unknown tag =>
    let name := Text.quoted tag
    { kind := "UnknownVersion", message := s!"unknown bytecode version {name}", tag := some tag }
  | .ambiguous tag candidates =>
    let name := Text.quoted tag
    let names := ", ".intercalate candidates
    { kind := "AmbiguousVersion"
      message := s!"bytecode version {name} is ambiguous between {names}"
      tag := some tag
      candidates := some candidates }

end VersionFault

/-- How a dialect was found, or that it was not. -/
inductive DetectionStatus where
  | exact
  | heuristic
  | ambiguous
  | unknown
  deriving DecidableEq, Repr

/-- The word for a status. -/
def DetectionStatus.text : DetectionStatus → String
  | .exact => "exact"
  | .heuristic => "heuristic"
  | .ambiguous => "ambiguous"
  | .unknown => "unknown"

/-- How dialects are looked for. -/
structure DetectionOptions where
  heuristic : Bool := false
  probe : Probe := {}
  minScore : Numeric := .real (Double.ofRat (3 / 4))
  prefer : Option Key := none

/-- The result of looking for a dialect. `candidates` are the dialects with the best score, in the
order of the registry. -/
structure Detection where
  status : DetectionStatus
  tag : String
  version : Option Dialect := none
  candidates : List Dialect := []
  scores : List (String × Double) := []

namespace Detection

/-- How sure the result is: fully when the tag names the dialect, else by its score. -/
def confidence (x : Detection) : Double :=
  match x.status, x.version with
  | .exact, _ => Double.ofRat 1
  | _, some d => (x.scores.lookup d.id).getD (Double.ofRat 0)
  | _, none => Double.ofRat 0

/-- The dialect found, or why there is none. -/
def require (x : Detection) : Except VersionFault Dialect :=
  match x.version, x.status with
  | some d, _ => .ok d
  | none, .ambiguous => .error (.ambiguous x.tag (x.candidates.map (·.id)))
  | none, _ => .error (.unknown x.tag)

/-- The result as an object. -/
def toJson (x : Detection) : Json :=
  let candidates := if x.candidates.isEmpty then [] else
    [("candidates", Json.texts (x.candidates.map (·.id)))]
  let scores := if x.scores.isEmpty then [] else
    [("scores", Json.object (x.scores.map fun s => (s.1, .real (s.2.roundPlaces 4))))]
  .object ([("status", .text x.status.text), ("tag", .text x.tag),
    ("version", Json.ofOption (fun d => .text d.id) x.version),
    ("confidence", .real (x.confidence.roundPlaces 4))] ++ candidates ++ scores)

/-- The dialects to probe for a script: those of its format, or all when there are none. -/
def candidatesFor (r : Registry) (c : Container) : List Dialect :=
  match c.format with
  | none => r.dialects
  | some format =>
    let narrowed := r.withFormat format
    if format = 0 || narrowed.isEmpty then r.dialects else narrowed

/-- The difference of scores that still counts as a tie: a billionth. -/
def tie : Rat := (Double.ofRat (1 / 1000000000)).toRat

/-- Whether a score ties with the best. -/
def ties (best score : Double) : Bool :=
  (Double.ofRat (best.toRat - score.toRat)).toRat ≤ tie

/-- The best of some scores. -/
def bestOf (scores : List Double) : Double :=
  scores.foldl (fun a b => if a.toRat < b.toRat then b else a) (Double.ofRat 0)

/-- The dialect among the leaders that the caller prefers. A key that spells no id is noted. -/
def preferred? (name : String) (leaders : List Dialect) (prefer : Option Key) :
    Noted (Option Dialect) :=
  match prefer with
  | none => pure none
  | some key =>
    match key.id with
    | .ok id => pure (leaders.find? (·.id == id))
    | .error _ => do
      let shown := key.quoted
      Noted.leave .warning .detection s!"{name}: ignoring malformed preferred version {shown}"
      pure none

/-- Chooses among probed dialects. -/
def choose (o : DetectionOptions) (name tag : String) (probed : List (Dialect × Double)) :
    Noted Detection := do
  if probed.isEmpty then return { status := .unknown, tag }
  let scores := probed.map fun p => (p.1.id, p.2)
  let best := bestOf (probed.map (·.2))
  let bestText := best.fixed 2
  if Numeric.lt (.real best) o.minScore then
    Noted.leave .info .detection
      s!"{name}: heuristic detection inconclusive (best score {bestText})"
    return { status := .unknown, tag, scores }
  let leaders := (probed.filter fun p => ties best p.2).map (·.1)
  match leaders with
  | [d] =>
    Noted.leave .info .detection s!"{name}: heuristically matched {d.id} (score {bestText})"
    return { status := .heuristic, tag, version := some d, candidates := leaders, scores }
  | _ =>
    match ← preferred? name leaders o.prefer with
    | some d =>
      Noted.leave .info .detection s!"{name}: ambiguity resolved to {d.id} by caller preference"
      return { status := .heuristic, tag, version := some d, candidates := leaders, scores }
    | none =>
      let names := ", ".intercalate (leaders.map (·.id))
      Noted.leave .warning .detection
        s!"{name}: {leaders.length} bytecode versions score equally ({names})"
      return { status := .ambiguous, tag, candidates := leaders, scores }

/-- Probes a dialect. -/
def probeWith (o : DetectionOptions) (payload : List UInt8) (d : Dialect) :
    Noted (Dialect × Double) :=
  let s := Score.probed d o.probe payload
  ⟨(d, Score.rounded o.probe s), s.notes⟩

/-- Finds the dialect of a script. -/
def ofContainer (r : Registry) (o : DetectionOptions) (c : Container) : Noted Detection := do
  let tag := c.tagText
  match r.get? (.bytes c.tag) with
  | some d =>
    Noted.leave .debug .detection s!"{c.name}: exact bytecode match {d.id}"
    return { status := .exact, tag, version := some d, candidates := [d] }
  | none =>
    if o.heuristic then
      choose o c.name tag (← (candidatesFor r c).mapM (probeWith o c.payload))
    else
      let shown := Text.quoted tag
      Noted.leave .debug .detection
        s!"{c.name}: tag {shown} not registered and heuristics disabled"
      return { status := .unknown, tag }

end Detection

/-- The registry, or the standard one when it is empty. -/
def Registry.orStandard (r : Registry) : Registry :=
  if r.dialects.isEmpty then Registry.standard else r

end Unscript
