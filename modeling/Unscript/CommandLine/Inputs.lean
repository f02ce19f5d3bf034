import Unscript.CommandLine.Session
import Unscript.CommandLine.Invocation
import Unscript.Envelope.Basic

/-!
# Inputs

An input is a compiled script, perhaps encrypted, or a directory in which scripts are looked for by
their suffix. Every file is taken once, in the order of the paths.

* `Inputs.collect` finds the files that some words name.
* `Inputs.openBytes` opens a file, or tells why it is no script.
-/

namespace Unscript.CommandLine

/-- Why a file is no script. -/
inductive InputFault where
  | locked
  | envelope (e : EnvelopeFault)
  | container (e : DecodeError)
  deriving DecidableEq, Repr

/-- The message about a file. -/
def InputFault.message (p : Path) : InputFault → String
  | .locked => s!"{p.text}: script is encrypted, pass --key"
  | .envelope e => s!"{p.text}: {e.message}"
  | .container e => s!"{p.text}: not a compiled script ({e.message})"

/-- What opens encrypted scripts: a key, if there is one, and the engine they were made for. -/
structure Access where
  key : Option (List UInt8) := none
  engine : Int := 3
  deriving DecidableEq, Repr

namespace Inputs

/-- The suffixes of scripts. -/
def suffixes : List String := [".gdc", ".gde"]

/-- Whether a path has the suffix of a script, in letters of either case. -/
def isScript (p : Path) : Bool :=
  suffixes.contains p.suffix.toLower

/-- The files that a path stands for: itself, or the scripts below it. -/
def found? (t : FileTree) (p : Path) : Option (List Path) :=
  match t.find p with
  | .ok .directory => some ((t.below p).filter isScript)
  | .ok (.file _) => some [p]
  | .error _ => none

/-- The paths without repetitions, in their order. -/
def ordered (ps : List Path) : List Path :=
  (ps.mergeSort Path.le).eraseDups

/-- Finds the files that a word names. -/
def named (word : String) : Working (List Path) := do
  let p := Path.read word
  match found? (← Working.tree) p with
  | none => Working.refuse 2 s!"input {p.text} not found"
  | some [] =>
    Working.say .warning s!"no compiled scripts found under {word}"
    return []
  | some ps => return ps

/-- Finds the files that some words name. -/
def collect (words : List String) : Working (List Path) := do
  return ordered (← words.mapM named).flatten

/-- The bytes of a script, decrypted if need be. -/
def unlock (a : Access) (bytes : List UInt8) : Noted (Except InputFault (List UInt8)) :=
  if !Envelope.isEnvelope bytes then pure (.ok bytes)
  else
    match a.key with
    | none => pure (.error .locked)
    | some key =>
      match Envelope.unwrap Envelope.standard bytes key a.engine with
      | .error e => pure (.error (.envelope e))
      | .ok plain => ⟨.ok plain, [Envelope.openedNote plain.length a.engine]⟩

/-- Opens the bytes of a file. -/
def openBytes (a : Access) (name : String) (bytes : List UInt8) :
    Noted (Except InputFault Container) := do
  match ← unlock a bytes with
  | .error e => return .error e
  | .ok plain => return (Container.ofBytes plain name).mapError .container

/-- Opens a file. -/
def openFile (a : Access) (p : Path) : Working (Except InputFault Container) := do
  Working.noted (openBytes a p.name (← Working.readFile p))

/-- Opens files one after another: those that are scripts with their paths, and the messages about
the others. -/
def openAll (a : Access) : List Path → Working (List (Path × Container) × List String)
  | [] => return ([], [])
  | p :: rest => do
    match ← openFile a p with
    | .ok c =>
      let (cs, errors) ← openAll a rest
      return ((p, c) :: cs, errors)
    | .error e =>
      let message := e.message p
      Working.say .error message
      let (cs, errors) ← openAll a rest
      return (cs, message :: errors)

end Inputs

end Unscript.CommandLine
