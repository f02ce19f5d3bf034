import Unscript.CommandLine.Commands
import Unscript.Json.Parser
import Unscript.Text.Utf8

/-!
# Carrying out command lines

A command line is read, the settings are gathered from their file and from its flags, the key is
read, and the command is carried out on a tree of files.

* `run` is what becomes of a command line: how it ends, what it prints, and the files afterwards.
-/

namespace Unscript.CommandLine

/-- The name of the program and its version. -/
def versionText : String := "gdre 0.4.0\n"

/-- How the program is used. -/
def usageText : String :=
  "usage: gdre [--version] [-v] [--debug-log PATH] decompile|detect|disasm|versions ...\n"

/-- Why the settings could not be read. -/
inductive SettingsFault where
  | file (e : FileFault)
  | text (e : Text.Utf8.Error)
  | document (message : String)
  | notObject (p : Path)
  | range (message : String)
  deriving DecidableEq, Repr

/-- The words for a fault. -/
def SettingsFault.message : SettingsFault → String
  | .file e => e.message
  | .text e => e.message
  | .document words => words
  | .notObject p => s!"{p.text}: options file must contain a JSON object"
  | .range words => words

namespace Settings

/-- The members of the file of settings. -/
def membersOf (p : Path) (bytes : List UInt8) : Except SettingsFault (List (String × Json)) := do
  let text ← (Text.Utf8.read bytes).mapError .text
  let doc := Text.Utf8.plainLines text.toList
  match ← (Json.parse doc).mapError (fun e => .document (e.message doc)) with
  | .object ms => return ms
  | _ => throw (.notObject p)

/-- Ends the session when the settings cannot be used. -/
def usable {α : Type} (x : Except SettingsFault α) : Working α := do
  match x with
  | .ok a => return a
  | .error e => Working.refuse 2 s!"invalid options: {e.message}"

/-- Settings that are out of their range are refused; those of the wrong kind are a fault. -/
def checked (x : Options.Read Options) : Working Options := do
  match x with
  | .ok o => return o
  | .error e =>
    match e.message? with
    | some text => usable (.error (.range text))
    | none => throw (.fault (.options e))

/-- The settings in a file. -/
def ofFile (word : String) : Working Options := do
  let p := Path.read word
  let bytes ← usable (((← Working.tree).read p).mapError .file)
  let members ← usable (membersOf p bytes)
  let o ← checked (← Working.noted (Options.ofMembers members))
  Working.noted (Noted.leave .debug .options s!"loaded options from {p.text}")
  return o

/-- The settings of a command line: those of its file, changed by its flags. -/
def ofInvocation (i : Invocation) : Working Options := do
  let o ← match i.settings with
    | some word => ofFile word
    | none => pure {}
  if i.changes.all (fun c => c.2 matches .null) then return o
  checked (o.override i.changes)

end Settings

/-- What opens the inputs of a command line. -/
def accessOf (i : Invocation) : Working Access := do
  match i.key with
  | none => return { engine := i.engine }
  | some text =>
    match Envelope.parseKey text with
    | .ok key => return { key := some key, engine := i.engine }
    | .error e => Working.refuse 2 e.message

/-- Carries out an invocation. -/
def work (i : Invocation) : Working Nat := do
  match i.debugLog with
  | some word =>
    set (← Working.orFault .file ((← get).logTo (Path.read word)))
  | none => pure ()
  let o ← Settings.ofInvocation i
  let a ← accessOf i
  Commands.carryOut o a i.key i.command

/-- How a command line ends. -/
inductive Ending where
  | usage (u : Usage)
  | exit (code : Nat)
  | fault (e : Fault)
  deriving DecidableEq, Repr

/-- The exit code of an ending. -/
def Ending.code : Ending → Nat
  | .usage .wrong => 2
  | .usage _ => 0
  | .exit code => code
  | .fault _ => 1

/-- What becomes of a command line. `shown` are the notes that are shown. -/
structure Outcome where
  ending : Ending
  printed : String := ""
  shown : List Note := []
  files : FileTree

/-- The notes that are shown: the less important ones only if asked for. -/
def shownNotes (everything : Bool) (notes : List Note) : List Note :=
  notes.filter fun n => everything || Level.info.rank ≤ n.level.rank

/-- Carries out a command line on a tree of files. -/
def run (files : FileTree) (line : List String) : Outcome :=
  match Invocation.read line with
  | .error u =>
    { ending := .usage u, printed := if u = .version then versionText else "", files }
  | .ok i =>
    let (result, s) := (work i).run { files }
    { ending := match result with
        | .ok code => .exit code
        | .error (.exit code) => .exit code
        | .error (.fault e) => .fault e
      printed := s.printed
      shown := shownNotes (i.verbose || i.debugLog.isSome) s.notes
      files := s.files }

end Unscript.CommandLine
