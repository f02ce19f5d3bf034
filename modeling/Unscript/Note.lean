/-!
# Notes about a run

Every stage of a run leaves notes: what it found at which level of importance, under the name of
the stage that found it. Notes are values, in the order in which they arise; whoever runs the
stages decides which to show.

* `Note.line` is the line in which a note is shown.
-/

namespace Unscript

/-- How important a note is. -/
inductive Level where
  | debug
  | info
  | warning
  | error
  deriving DecidableEq, Repr

namespace Level

/-- The word for a level. -/
def text : Level → String
  | .debug => "DEBUG"
  | .info => "INFO"
  | .warning => "WARNING"
  | .error => "ERROR"

/-- The rank of a level. -/
def rank : Level → Nat
  | .debug => 0
  | .info => 1
  | .warning => 2
  | .error => 3

end Level

/-- The stage that leaves a note. -/
inductive Stage where
  | commandLine
  | options
  | paths
  | envelope
  | detection
  | decoding
  | lifting
  | structuring
  | decompiling
  deriving DecidableEq, Repr

/-- The name under which a stage leaves its notes. -/
def Stage.text : Stage → String
  | .commandLine => "gdre.cli"
  | .options => "gdre.options"
  | .paths => "gdre.utils"
  | .envelope => "gdre.crypto"
  | .detection => "gdre.detect"
  | .decoding => "gdre.vm.disassembler"
  | .lifting => "gdre.vm.lifter"
  | .structuring => "gdre.vm.reconstruct_controlflow"
  | .decompiling => "gdre.decompiler"

/-- A note of a stage. -/
structure Note where
  level : Level
  stage : Stage
  text : String
  deriving DecidableEq, Repr

/-- The line in which a note is shown. -/
def Note.line (n : Note) : String :=
  s!"{n.level.text} {n.stage.text}: {n.text}"

/-- A value and the notes left while it was found. -/
structure Noted (α : Type) where
  value : α
  notes : List Note

namespace Noted

/-- A value without notes. -/
def silent {α : Type} (a : α) : Noted α := ⟨a, []⟩

/-- Runs one step after another and keeps the notes of both. -/
def andThen {α β : Type} (x : Noted α) (f : α → Noted β) : Noted β :=
  let y := f x.value
  ⟨y.value, x.notes ++ y.notes⟩

instance : Monad Noted where
  pure := silent
  bind := andThen

/-- Leaves one note. -/
def leave (level : Level) (stage : Stage) (text : String) : Noted Unit :=
  ⟨(), [⟨level, stage, text⟩]⟩

@[simp] theorem value_pure {α : Type} (a : α) : (pure a : Noted α).value = a := rfl

@[simp] theorem value_bind {α β : Type} (x : Noted α) (f : α → Noted β) :
    (x >>= f).value = (f x.value).value := rfl

@[simp] theorem notes_bind {α β : Type} (x : Noted α) (f : α → Noted β) :
    (x >>= f).notes = x.notes ++ (f x.value).notes := rfl

end Noted

end Unscript
