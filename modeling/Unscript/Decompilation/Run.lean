import Unscript.Decompilation.Result
import Unscript.Options
import Unscript.Source.Calls
import Unscript.Structuring.Stack

/-!
# Recovering units

A run finds the dialect of a unit, decodes it, structures its functions and writes them as source
text. A function that fails leaves a result of its own and does not stop the others. A run can be
cancelled before each of its stages.

Structuring and writing call themselves for what is nested in a function, and the host may bound how
many calls are nested. No stage expects to run out of them: where a function needs more calls than
there are, the whole run ends without a result.

* `Decompiler.runOn` recovers one unit on a stack, which has no bound or one.
* `Decompiler.run` recovers one unit and `Decompiler.runAll` several, on a stack without a bound.
-/

namespace Unscript

/-- The stages of a run before which it can be cancelled. -/
inductive Checkpoint where
  | detection
  | decoding
  | reconstruction
  | emission
  deriving DecidableEq, Repr

/-- The word for a stage. -/
def Checkpoint.text : Checkpoint → String
  | .detection => "detection"
  | .decoding => "decoding"
  | .reconstruction => "reconstruction"
  | .emission => "emission"

/-- The report of a cancelled run. -/
def Checkpoint.diagnostic (c : Checkpoint) : Diagnostic where
  kind := "Cancelled"
  message := s!"cancelled before {c.text}"

/-- A unit as it is given: a file, or a container that was opened before. -/
inductive UnitInput where
  | blob (bytes : List UInt8) (name : Option String)
  | container (c : Container)

/-- The name of a unit. -/
def UnitInput.name : UnitInput → String
  | .blob _ name => (name.filter fun n => !n.isEmpty).getD Container.anonymous
  | .container c => c.name

/-- What a run needs beside the unit: the registry, the options, the dialect if it is forced, and
the stages before which the run is cancelled. -/
structure Decompiler where
  registry : Registry
  options : Options
  version : Option Key := none
  cancelled : Checkpoint → Bool := fun _ => false

namespace Decompiler

/-- Why a run stops before it has source text. -/
inductive Stop where
  | cancelled (c : Checkpoint)
  | version (e : VersionFault)
  | container (e : DecodeError)
  deriving DecidableEq, Repr

namespace Stop

/-- The report of a stop. -/
def diagnostic : Stop → Diagnostic
  | .cancelled c => c.diagnostic
  | .version e => e.diagnostic
  | .container e => e.diagnostic

/-- The note about a stop. -/
def note (name : String) (s : Stop) : Note :=
  let message := s.diagnostic.message
  match s with
  | .cancelled _ => ⟨.info, .decompiling, s!"{name}: {message}"⟩
  | .version _ => ⟨.error, .decompiling, s!"{name}: {message}"⟩
  | .container _ => ⟨.error, .decompiling, s!"{name}: unreadable container: {message}"⟩

end Stop

/-- What a run found so far: a result that grows, and the notes. A run stops with the result it has;
a fault of structuring that has no report ends it without one. -/
abbrev Run := ExceptT (Stop ⊕ StructureFault) (StateM (UnitResult × List Note))

namespace Run

/-- Adds notes. -/
def notes (ns : List Note) : Run Unit :=
  modify fun s => (s.1, s.2 ++ ns)

/-- Leaves a note of the run itself. -/
def note (level : Level) (text : String) : Run Unit :=
  notes [⟨level, .decompiling, text⟩]

/-- Changes the result. -/
def change (f : UnitResult → UnitResult) : Run Unit :=
  modify fun s => (f s.1, s.2)

/-- A part of the run that leaves notes. -/
def noted {α : Type} (x : Noted α) : Run α := do
  notes x.notes
  return x.value

/-- The name of the unit. -/
def unitName : Run String := do
  return (← get).1.name

end Run

/-- Stops the run if it is cancelled before a stage. -/
def checkpoint (m : Decompiler) (c : Checkpoint) : Run Unit := do
  if m.cancelled c then throw (.inl (.cancelled c))

/-! ## Finding the dialect -/

/-- The dialect of a unit: the forced one, or the one that its tag or probing tells. -/
def resolve (m : Decompiler) (c : Container) : Run Dialect := do
  match m.version with
  | some key =>
    match m.registry.get? key with
    | some d => return d
    | none => throw (.inl (.version (.unknown key.shown)))
  | none =>
    let found ← Run.noted (Detection.ofContainer m.registry m.options.detection c)
    Run.change fun r => { r with detection := some found }
    match found.require with
    | .error e => throw (.inl (.version e))
    | .ok d =>
      if found.status = .heuristic then
        let tag := Text.quoted found.tag
        let score := found.confidence.fixed 2
        let warning := s!"version {d.id} chosen heuristically for tag {tag} (score {score})"
        Run.note .warning s!"{← Run.unitName}: {warning}"
        Run.change fun r => { r with warnings := r.warnings ++ [warning] }
      return d

/-! ## Functions -/

/-- A function on its way: decoded, with its result so far and its tree if it has one. -/
structure Work where
  function : Function
  result : FunctionResult
  tree : Option Structured := none

/-- The result of a function before it is structured. -/
def begun (f : Function) : FunctionResult where
  name := f.name
  index := f.header.index
  status := if f.error.isSome then .incomplete else .ok
  error := f.error.map (·.diagnostic)
  instructionCount := f.instructions.length

/-- How the recovery of a structured function ended: one that decoded in full is incomplete when too
much of it is raw, or when raw code moves control. -/
def statusOf (m : Decompiler) (s : Structured) (before : FunctionStatus) : FunctionStatus :=
  if before = .ok && (Number.Numeric.lt m.options.rawBlockLimit (.real s.rawRatio) ||
      s.rawTransfers != 0) then .incomplete
  else before

/-- Structures a function. -/
def structureFunction (m : Decompiler) (stack : Option Nat) (d : Dialect) (f : Function) :
    Run Work := do
  let unit ← Run.unitName
  let result := begun f
  let structured ← Run.noted (Structured.ofInstructionsWithin stack d m.options.structuring
    f.instructions (some f.codeLength))
  match structured with
  | .error e =>
    match e.diagnostic? with
    | none => throw (.inr e)
    | some g =>
      Run.note .warning s!"{unit}: {f.name} failed: {g.message}"
      return { function := f, result := { result with status := .failed, error := some g } }
  | .ok s =>
    if !s.unreachable.isEmpty then
      let blocks := Structured.blockList s.unreachable
      let warning := s!"{f.name}: unreachable blocks {blocks} (possible version misdetection)"
      Run.change fun r => { r with warnings := r.warnings ++ [warning] }
    if s.lowConfidence then
      Run.note .warning (s!"{unit}: {f.name} has {s.rawBlocks} raw block(s), " ++
        s!"{s.residue} stack residue value(s)")
    return {
      function := f
      result := { result with
        status := m.statusOf s result.status
        confidence := s.confidence
        rawBlocks := s.rawBlocks
        unreachable := s.unreachable }
      tree := some s }

/-- The report of a function that could not be written. -/
def emitDiagnostic (e : Source.Fault) : Diagnostic where
  kind := "EmitError"
  message := e.message

/-- Writes a function, or what stands for it: its text and its result. -/
def write (stack : Option Nat) (style : Source.Style) (w : Work) : Run (String × FunctionResult) := do
  let f := w.function
  match w.tree with
  | none =>
    let message := (w.result.error.map (·.message)).getD "unknown failure"
    return (Source.failureText style f.header message, w.result)
  | some s =>
    if stack.any (· < Source.functionCalls style f.header f.constants (.ofStructured s)) then
      throw (.inr .exhausted)
    match Source.functionText style f.header f.constants (.ofStructured s) with
    | .ok text => return (text, { w.result with source := some text })
    | .error e =>
      Run.note .warning s!"{f.name} could not be rendered: {e.message}"
      return (Source.failureText style f.header e.message,
        { w.result with status := .failed, error := some (emitDiagnostic e) })

/-- The results of functions that were never decoded. -/
def missing (s : Script) : List FunctionResult :=
  match s.error? with
  | none => []
  | some e =>
    (List.range (s.functionCount - s.functions.length)).map fun k =>
      let index := s.functions.length + k
      { name := s!"func_{index}", index, status := .failed, error := some e.diagnostic }

/-! ## Units -/

/-- Where a unit is from, as comments in its source text. -/
def provenance (m : Decompiler) (d : Dialect) (u : UnitResult) : Option Source.Provenance :=
  if m.options.provenanceHeader then
    let detection := u.detection.map fun x =>
      let confidence := (x.confidence.roundPlaces 4).text
      s!"{x.status.text} (confidence {confidence})"
    some (Source.Provenance.ofUnit u.name d detection u.warnings)
  else none

/-- The container of a unit. -/
def opened (input : UnitInput) : Run Container :=
  match input with
  | .container c => return c
  | .blob bytes _ => do
    match Container.ofBytes bytes (← Run.unitName) with
    | .ok c => return c
    | .error e => throw (.inl (.container e))

/-- What the functions of a unit have in common when they are written. -/
def styleOf (m : Decompiler) (d : Dialect) (s : Script) : Source.Style where
  dialect := d
  indent := m.options.indent
  functions := s.functions.map (·.name)

/-- The stages of a run behind its container. -/
def recoverContainer (m : Decompiler) (stack : Option Nat) (c : Container) : Run Unit := do
  let d ← m.resolve c
  Run.change fun r => { r with version := some d.id }
  m.checkpoint .decoding
  let s := Script.decode d c.payload {}
  Run.notes s.notes
  let unit ← Run.unitName
  match s.error? with
  | none => pure ()
  | some e =>
    Run.note .warning s!"{unit}: {e.message}"
    Run.change fun r => { r with error := some e.diagnostic }
  m.checkpoint .reconstruction
  let works ← s.functions.mapM (m.structureFunction stack d)
  m.checkpoint .emission
  let written ← works.mapM (write stack (m.styleOf d s))
  Run.change fun r => { r with functions := written.map (·.2) ++ missing s }
  Run.change fun r => { r with
    source := some (Source.unitText (written.map (·.1)) s.baseClass s.className
      (m.provenance d r)) }
  let count (status : FunctionStatus) : Run Nat := do
    return (← get).1.functions.countP (·.status == status)
  Run.note .info (s!"{unit}: {← count .ok} ok, {← count .incomplete} incomplete, " ++
    s!"{← count .failed} failed ({d.id})")

/-- The stages of a run. -/
def stages (m : Decompiler) (stack : Option Nat) (input : UnitInput) : Run Unit := do
  m.checkpoint .detection
  m.recoverContainer stack (← opened input)

/-- Recovers a unit on a stack. -/
def runOn (m : Decompiler) (stack : Option Nat) (input : UnitInput) :
    Noted (Except StructureFault UnitResult) :=
  match (m.stages stack input).run ({ name := input.name }, []) with
  | (.ok (), result, notes) => ⟨.ok result, notes⟩
  | (.error (.inr e), _, notes) => ⟨.error e, notes⟩
  | (.error (.inl stop), result, notes) =>
    let stopped := { result with
      source := none
      error := some stop.diagnostic
      cancelled := stop matches .cancelled _ }
    ⟨.ok stopped, notes ++ [stop.note result.name]⟩

/-- Recovers a unit. -/
def run (m : Decompiler) (input : UnitInput) : Noted (Except StructureFault UnitResult) :=
  m.runOn none input

/-- The notes about the count of workers for some units. -/
def workerNotes (units : Nat) (jobs : Number.Numeric) : List Note :=
  if 1 < units && Number.Numeric.lt (.int 1) jobs then
    [⟨.debug, .paths, s!"running {units} item(s) on {min jobs.floor units} thread(s)"⟩]
  else []

/-- Recovers several units, in their order. The count of workers shows in the notes only. -/
def runAll (m : Decompiler) (jobs : Option Number.Numeric) (inputs : List UnitInput) :
    Noted (Except StructureFault (List UnitResult)) := do
  let jobs := jobs.getD m.options.jobs
  let before : Noted Unit := ⟨(), workerNotes inputs.length jobs⟩
  before
  let results ← inputs.mapM m.run
  match results.mapM id with
  | .error e => return .error e
  | .ok units =>
    let workers := jobs.floor
    Noted.leave .info .decompiling
      s!"decompiled {units.length} unit(s) in 0.000s with {workers} worker(s)"
    return .ok units

end Decompiler

end Unscript
