import Unscript.CommandLine.Inputs
import Unscript.Decompilation.Report
import Unscript.Registry.Document
import Unscript.Script.Document
import Unscript.Script.Listing

/-!
# Commands

Each command is carried out as a part of a session and ends with an exit code: 0 when all went
well, 1 when some inputs or functions failed, 2 when the command could not be carried out.

* `Commands.target` tells where the source text of a script is written.
* `Commands.carryOut` carries out a command.
-/

namespace Unscript.CommandLine.Commands

open Working (say refuse print printLine printJson)

/-- The exit code for a result. -/
def codeFor (ok : Bool) : Nat :=
  if ok then 0 else 1

/-! ## Recovering scripts -/

/-- Where the source text of a script is written: beside it when no output is named. The output is
a directory when there are several scripts, when there is such a directory, or when it has no
suffix, and otherwise the file itself. The note tells of a place that was made up. -/
def target (t : FileTree) (output : Option Path) (several : Bool) (source : Path) : Noted Path :=
  let placed (directory : Option Path) : Noted Path :=
    let p := source.output ".gd" directory
    ⟨p, [⟨.debug, .paths, s!"output for {source.text} goes to {p.text}"⟩]⟩
  match output with
  | none => placed none
  | some o => if several || t.isDirectory o || o.suffix.isEmpty then placed (some o) else pure o

/-- Writes the source text of a script, if there is any: the path written to. -/
def deliver (r : DecompileRequest) (several : Bool) (source : Path) (u : UnitResult) :
    Working (Option Path) := do
  match u.source with
  | none => return none
  | some text =>
    if r.toStdout then
      print text
      return none
    else
      let p ← Working.noted (target (← Working.tree) (r.output.map Path.read) several source)
      Working.writeFile p text
      say .info s!"wrote {p.text} ({u.status.text})"
      return some p

/-- Delivers units one after another and adds them to a report. -/
def deliverAll (r : DecompileRequest) (several : Bool) :
    Report → List (Path × UnitResult) → Working Report
  | report, [] => return report
  | report, (p, u) :: rest => do
    let written ← deliver r several p u
    deliverAll r several (report.add u (written.map (·.text))) rest

/-- Recovers units, with the dialect forced or found. -/
def recover (o : Options) (dialect : Option String) (units : List Container) :
    Working (List UnitResult) := do
  let o ← Working.orFault .options o.usable
  let m : Decompiler := {
    registry := Registry.standard, options := o, version := dialect.map .text }
  let inputs := units.map UnitInput.container
  let results ← match dialect with
    | some _ => do
      let results ← Working.noted (inputs.mapM m.run)
      pure (results.mapM id)
    | none => Working.noted (m.runAll none inputs)
  Working.orFault .structuring results

/-- The text of a report file: a document when its suffix says so. -/
def reportText (p : Path) (r : Report) : String :=
  (if p.suffix.toLower = ".json" then r.toJson.print .file else r.toText) ++ "\n"

/-- Recovers scripts. -/
def decompile (o : Options) (a : Access) (key : Option String) (r : DecompileRequest) :
    Working Nat := do
  let paths ← Inputs.collect r.inputs
  if paths.isEmpty then
    say .warning "no input files discovered"
    return 0
  let (opened, errors) ← Inputs.openAll a paths
  let units ← recover o r.dialect (opened.map (·.2))
  let report ← deliverAll r (1 < opened.length) { key, errors } ((opened.map (·.1)).zip units)
  match r.report with
  | none => pure ()
  | some word =>
    let p := Path.read word
    Working.writeFile p (reportText p report)
    say .info s!"report written to {word}"
  if r.asJson then printJson report.toJson
  else if !r.toStdout then printLine report.toText
  return codeFor report.ok

/-! ## Telling dialects -/

/-- The members of an object. -/
def members : Json → List (String × Json)
  | .object ms => ms
  | _ => []

/-- The lines about a detection. -/
def detectionLines (p : Path) (x : Detection) : List String :=
  let label := (x.version.map (·.label)).getD "-"
  let candidates := ", ".intercalate (x.candidates.map (·.id))
  s!"{p.text}: {x.status.text} {x.tag} {label}" ::
    if x.version.isNone && !x.candidates.isEmpty then [s!"  candidates: {candidates}"] else []

/-- Tells the dialects of scripts one after another: what was found, and whether all were found. -/
def detectAll (o : DetectionOptions) (a : Access) (asJson : Bool) :
    List Path → Working (List Json × Bool)
  | [] => return ([], true)
  | p :: rest => do
    match ← Inputs.openFile a p with
    | .error e =>
      say .error (e.message p)
      let (entries, _) ← detectAll o a asJson rest
      return (entries, false)
    | .ok c =>
      let x ← Working.noted (Detection.ofContainer Registry.standard o c)
      if !asJson then (detectionLines p x).forM printLine
      let (entries, ok) ← detectAll o a asJson rest
      let entry := Json.object (("file", .text p.text) :: members x.toJson)
      return (entry :: entries, ok && x.version.isSome)

/-- Tells the dialects of scripts. -/
def detect (o : Options) (a : Access) (inputs : List String) (asJson : Bool) : Working Nat := do
  let (entries, ok) ← detectAll o.detection a asJson (← Inputs.collect inputs)
  if asJson then printJson (.array entries)
  return codeFor ok

/-! ## Listing instructions -/

/-- Lists the instructions of a script. -/
def disassemble (a : Access) (input : String) (dialect : Option String) (asJson : Bool) :
    Working Nat := do
  let p := Path.read input
  match (← Working.tree).find p with
  | .error .absent => refuse 2 (FileFault.message ⟨.absent, p⟩)
  | _ => pure ()
  let c ← match ← Inputs.openFile a p with
    | .ok c => pure c
    | .error e => refuse 2 (e.message p)
  let key : Key := (dialect.map .text).getD (.bytes c.tag)
  match Registry.standard.get? key with
  | none =>
    let reason := (VersionFault.unknown key.shown).diagnostic.message
    refuse 1 s!"{c.name}: {reason}"
  | some d =>
    let s := Script.decode d c.payload {}
    modify fun session => session.keep s.notes
    if asJson then printJson s.toJson else print s.listing
    return codeFor s.complete

/-! ## Showing dialects -/

/-- The line about a dialect. -/
def dialectLine (d : Dialect) : String :=
  let release := Text.padRight 12 ' ' d.release
  let format := Text.padLeft 2 ' ' (toString d.format)
  s!"{d.id}  {release} {d.date}  bytecode {format}  {d.summary}"

/-- Shows all dialects. -/
def dialects (asJson tables : Bool) : Working Nat := do
  let all := Registry.standard.dialects
  if asJson then printJson (.array (all.map (·.toJson tables)))
  else all.forM fun d => printLine (dialectLine d)
  return 0

/-- Carries out a command. -/
def carryOut (o : Options) (a : Access) (key : Option String) : Command → Working Nat
  | .decompile r => decompile o a key r
  | .detect inputs asJson => detect o a inputs asJson
  | .disassemble input dialect asJson => disassemble a input dialect asJson
  | .dialects asJson tables => dialects asJson tables

end Unscript.CommandLine.Commands
