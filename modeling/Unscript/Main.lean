import Unscript.CommandLine.Run

/-!
# The program

The files that a command line names are read, the command line is carried out on them, and what
changed is written back. A directory is known to be one, but it is not searched.
-/

open Unscript Unscript.CommandLine

/-- Adds what a path leads to; nothing is added when nothing can be read there. -/
def Unscript.FileTree.load (t : FileTree) (p : Path) : IO FileTree := do
  try
    let bytes ← IO.FS.readBinFile p.text
    return (t.write p bytes.toList).toOption.getD t
  catch
    | .inappropriateType .. =>
      return (t.makeDirectory p).toOption.getD t
    | _ => return t

/-- Writes the files that were made or changed. -/
def Unscript.FileTree.store (before after : FileTree) : IO Unit := do
  for (p, bytes) in after.files do
    if (before.read p).toOption != some bytes then
      IO.FS.createDirAll p.parent.text
      IO.FS.writeBinFile p.text ⟨bytes.toArray⟩

/-- The text that explains how a command line ended, if it has to be explained. -/
def Unscript.CommandLine.Ending.explanation : Ending → String
  | .usage .version | .exit _ => ""
  | .usage _ => usageText
  | .fault e => e.message ++ "\n"

/-- Carries out the command line. -/
def main (line : List String) : IO UInt32 := do
  let named := match Invocation.read line with
    | .ok i => i.named
    | .error _ => []
  let mut before : FileTree := {}
  for word in named do
    before ← before.load (Path.read word)
  let out := run before line
  before.store out.files
  IO.print out.printed
  IO.eprint (Session.lines out.shown ++ out.ending.explanation)
  return out.ending.code.toUInt32
