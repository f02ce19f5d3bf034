import Unscript.Decompilation.Run
import Unscript.FileTree
import Unscript.Json.Printer

/-!
# Sessions

Carrying out a command reads and writes files, prints text and leaves notes. All of this is kept as
a value: the tree of files, the text printed so far, and the notes in their order. A session may
keep its notes in a file as well, line by line as they arise.

* `Session.keep` adds notes, to the file of notes too.
* `Working` is a part of a session that may end it, with an exit code or with a fault for which
  there is no exit code.
-/

namespace Unscript.CommandLine

/-- What is known so far. `log` is the place of the file of notes, as long as it is that file. -/
structure Session where
  files : FileTree
  printed : String := ""
  notes : List Note := []
  log : Option Place := none

namespace Session

/-- The lines of notes. -/
def lines (notes : List Note) : String :=
  String.join (notes.map fun n => n.line ++ "\n")

/-- Adds bytes to the end of a file. -/
def append (t : FileTree) (at' : Place) (bytes : List UInt8) : FileTree :=
  match t.entryAt? at' with
  | some (.file old) => t.put at' (.file (old ++ bytes))
  | _ => t

/-- Keeps notes. -/
def keep (s : Session) (notes : List Note) : Session :=
  { s with
    notes := s.notes ++ notes
    files := match s.log with
      | some at' => append s.files at' (Bytes.ofString (lines notes))
      | none => s.files }

/-- Keeps the notes in a file from now on. The file is empty at first. -/
def logTo (s : Session) (p : Path) : Except FileFault Session := do
  let files ← s.files.write p []
  let at' ← (files.place p).mapError (⟨·, p⟩)
  return { s with files, log := some at' }

/-- Writes a file. When it takes the place of the file of notes, later notes are in no file. -/
def write (s : Session) (p : Path) (bytes : List UInt8) : Except FileFault Session := do
  let files ← s.files.write p bytes
  let at' ← (files.place p).mapError (⟨·, p⟩)
  return { s with files, log := s.log.filter (· != at') }

end Session

/-- A fault for which there is no exit code: a setting of the wrong kind, a file that is no file, or
code that has no meaning for the structure of a function. -/
inductive Fault where
  | options (e : OptionsFault)
  | file (e : FileFault)
  | structuring (e : StructureFault)
  deriving DecidableEq, Repr

/-- The message about a fault. -/
def Fault.message : Fault → String
  | .options (.unknown name) => s!"unknown setting {name}"
  | .options (.notNumber name) => s!"setting {name} is no number"
  | .options (.notText name) => s!"setting {name} is no text"
  | .options e => e.message?.getD "a setting cannot be used"
  | .file e => e.message
  | .structuring e => ((e.diagnostic?).map (·.message)).getD "code without a structure"

/-- How a session ends before its command is done. -/
inductive Halt where
  | exit (code : Nat)
  | fault (e : Fault)
  deriving DecidableEq, Repr

/-- A part of a session. -/
abbrev Working := ExceptT Halt (StateM Session)

namespace Working

/-- A part that leaves notes. -/
def noted {α : Type} (x : Noted α) : Working α := do
  modify fun s => s.keep x.notes
  return x.value

/-- Leaves a note of the command line itself. -/
def say (level : Level) (text : String) : Working Unit :=
  noted (Noted.leave level .commandLine text)

/-- Says what is wrong and ends the session. -/
def refuse {α : Type} (code : Nat) (text : String) : Working α := do
  say .error text
  throw (.exit code)

/-- Prints a text. -/
def print (text : String) : Working Unit :=
  modify fun s => { s with printed := s.printed ++ text }

/-- Prints a line. -/
def printLine (text : String) : Working Unit :=
  print (text ++ "\n")

/-- Prints a document. -/
def printJson (j : Json) : Working Unit :=
  printLine (j.print .console)

/-- The tree of files as it is now. -/
def tree : Working FileTree := do
  return (← get).files

/-- The value, or the end of the session with a fault. -/
def orFault {α ε : Type} (wrap : ε → Fault) (x : Except ε α) : Working α :=
  match x with
  | .ok a => return a
  | .error e => throw (.fault (wrap e))

/-- Reads a file. -/
def readFile (p : Path) : Working (List UInt8) := do
  orFault .file ((← tree).read p)

/-- Writes a text into a file. -/
def writeFile (p : Path) (text : String) : Working Unit := do
  set (← orFault .file ((← get).write p (Bytes.ofString text)))

end Working

end Unscript.CommandLine
