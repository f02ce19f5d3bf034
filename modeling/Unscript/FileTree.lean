import Unscript.Path
import Unscript.Text.Quoted

/-!
# Trees of files

A tree holds files and directories by their places. A place is the row of names that a path leads
to, name by name: two points lead back to the directory before, and beyond the place where a
relative path starts. Every name on the way must be a directory.

* `FileTree.read` reads a file and `FileTree.write` writes one, with the directories above it.
* `FileTree.below` lists all that lies below a directory.
* `FileTree.entryAt_put` says that a tree holds what was put into it.
-/

namespace Unscript

/-- What stands at a place. -/
inductive Entry where
  | directory
  | file (bytes : List UInt8)
  deriving DecidableEq, Repr

/-- The names that lead to an entry. -/
abbrev Place := List String

/-- What can be wrong with a path. -/
inductive FileProblem where
  | absent
  | occupied
  | notDirectory
  | isDirectory
  deriving DecidableEq, Repr

namespace FileProblem

/-- The number of a problem. -/
def number : FileProblem → Nat
  | .absent => 2
  | .occupied => 17
  | .notDirectory => 20
  | .isDirectory => 21

/-- The words for a problem. -/
def text : FileProblem → String
  | .absent => "No such file or directory"
  | .occupied => "File exists"
  | .notDirectory => "Not a directory"
  | .isDirectory => "Is a directory"

end FileProblem

/-- A problem and the path that has it. -/
structure FileFault where
  problem : FileProblem
  path : Path
  deriving DecidableEq, Repr

/-- The message about a fault. -/
def FileFault.message (f : FileFault) : String :=
  let name := Text.quoted f.path.text
  s!"[Errno {f.problem.number}] {f.problem.text}: {name}"

/-- Files and directories by their places, in the order in which they were made. -/
structure FileTree where
  entries : List (Place × Entry) := []
  deriving DecidableEq, Repr

namespace FileTree

/-! ## Places -/

/-- Whether a place is a start of paths, or above one: such places are always directories. -/
def isBase (at' : Place) : Bool :=
  at'.all fun n => n == ".." || n == "/" || n == "//"

/-- What stands at a place. -/
def entryAt? (t : FileTree) (at' : Place) : Option Entry :=
  if isBase at' then some .directory else t.entries.lookup at'

/-- The place that a name leads to. -/
def step (at' : Place) (name : String) : Place :=
  if name = ".." then
    match at'.getLast? with
    | none => [".."]
    | some n => if n = ".." then at' ++ [name] else if isBase [n] then at' else at'.dropLast
  else at' ++ [name]

/-- The place that names lead to from a place. -/
def walk (t : FileTree) : Place → List String → Except FileProblem Place
  | at', [] => .ok at'
  | at', n :: rest =>
    match t.entryAt? at' with
    | some .directory => t.walk (step at' n) rest
    | some (.file _) => .error .notDirectory
    | none => .error .absent

/-- The place at which a path starts. -/
def start (p : Path) : Place :=
  if p.root.isEmpty then [] else [p.root]

/-- The place that a path leads to. -/
def place (t : FileTree) (p : Path) : Except FileProblem Place :=
  t.walk (start p) p.names

/-- What a path leads to. -/
def find (t : FileTree) (p : Path) : Except FileProblem Entry := do
  let at' ← t.place p
  match t.entryAt? at' with
  | some e => .ok e
  | none => .error .absent

/-- Whether a path leads to a directory. -/
def isDirectory (t : FileTree) (p : Path) : Bool :=
  match t.find p with
  | .ok .directory => true
  | _ => false

/-- Reads a file. -/
def read (t : FileTree) (p : Path) : Except FileFault (List UInt8) :=
  match t.find p with
  | .ok (.file bytes) => .ok bytes
  | .ok .directory => .error ⟨.isDirectory, p⟩
  | .error e => .error ⟨e, p⟩

/-- The paths of all that lies below a directory. -/
def below (t : FileTree) (p : Path) : List Path :=
  match t.place p with
  | .error _ => []
  | .ok at' =>
    t.entries.filterMap fun e =>
      if at'.isPrefixOf e.1 && at' != e.1 then
        some { p with names := p.names ++ e.1.drop at'.length }
      else none

/-! ## Changes -/

/-- Replaces the entry at a place in a list of entries, or adds it at the end. -/
def replace (at' : Place) (e : Entry) : List (Place × Entry) → List (Place × Entry)
  | [] => [(at', e)]
  | x :: rest => if x.1 = at' then (at', e) :: rest else x :: replace at' e rest

/-- Puts an entry at a place. -/
def put (t : FileTree) (at' : Place) (e : Entry) : FileTree :=
  ⟨replace at' e t.entries⟩

theorem lookup_replace (at' : Place) (e : Entry) (l : List (Place × Entry)) :
    (replace at' e l).lookup at' = some e := by
  induction l with
  | nil => simp [replace]
  | cons x rest ih =>
    obtain ⟨k, v⟩ := x
    by_cases h : k = at'
    · simp [replace, h]
    · have h' : (at' == k) = false := beq_eq_false_iff_ne.2 (Ne.symm h)
      simp [replace, h, List.lookup_cons, h', ih]

theorem lookup_replace_ne {at' other : Place} (h : other ≠ at') (e : Entry)
    (l : List (Place × Entry)) : (replace at' e l).lookup other = l.lookup other := by
  have h' : (other == at') = false := beq_eq_false_iff_ne.2 h
  induction l with
  | nil => simp [replace, List.lookup_cons, h']
  | cons x rest ih =>
    obtain ⟨k, v⟩ := x
    by_cases hk : k = at'
    · subst hk
      simp [replace, List.lookup_cons, h']
    · simp only [replace, hk, if_false, List.lookup_cons]
      cases other == k <;> simp [ih]

/-- A tree holds what was put into it. -/
@[simp] theorem entryAt_put {t : FileTree} {at' : Place} {e : Entry} (h : isBase at' = false) :
    (t.put at' e).entryAt? at' = some e := by
  simp [entryAt?, put, h, lookup_replace]

/-- All other places keep their entries. -/
theorem entryAt_put_ne {t : FileTree} {at' other : Place} {e : Entry} (h : other ≠ at') :
    (t.put at' e).entryAt? other = t.entryAt? other := by
  simp [entryAt?, put, lookup_replace_ne h]

/-- Makes the directories that names lead through, as far as they are missing. -/
def makeFrom (t : FileTree) : Place → List String → Except FileProblem FileTree
  | _, [] => .ok t
  | at', n :: rest =>
    let next := step at' n
    match t.entryAt? next with
    | some .directory => t.makeFrom next rest
    | some (.file _) => .error (if rest.isEmpty then .occupied else .notDirectory)
    | none => (t.put next .directory).makeFrom next rest

/-- Makes a directory and those above it. -/
def makeDirectory (t : FileTree) (p : Path) : Except FileFault FileTree :=
  (t.makeFrom (start p) p.names).mapError (⟨·, p⟩)

/-- Writes a file; the directories above it are made if need be. -/
def write (t : FileTree) (p : Path) (bytes : List UInt8) : Except FileFault FileTree := do
  let t ← t.makeDirectory p.parent
  let at' ← (t.place p).mapError (⟨·, p⟩)
  match t.entryAt? at' with
  | some .directory => .error ⟨.isDirectory, p⟩
  | _ => .ok (t.put at' (.file bytes))

/-- The path of a place. -/
def pathOf (at' : Place) : Path :=
  match at' with
  | n :: rest => if n == "/" || n == "//" then ⟨n, rest⟩ else ⟨"", at'⟩
  | [] => {}

/-- All files with their paths, in the order in which they were made. -/
def files (t : FileTree) : List (Path × List UInt8) :=
  t.entries.filterMap fun e =>
    match e.2 with
    | .file bytes => some (pathOf e.1, bytes)
    | .directory => none

/-- The tree of some files; a file that cannot be placed is left out. -/
def ofFiles (files : List (Path × List UInt8)) : FileTree :=
  files.foldl (fun t f =>
    match t.write f.1 f.2 with
    | .ok t => t
    | .error _ => t) {}

end FileTree

end Unscript
