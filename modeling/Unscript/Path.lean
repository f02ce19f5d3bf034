/-!
# Paths

A path is a row of names under a root or without one. Empty names and single points are left out
when a path is read, so that paths which differ only in them are equal.

* `Path.read` reads a path and `Path.text` writes it.
* `Path.stem` and `Path.suffix` split the last name at its last point, unless the point begins or
  ends the name.
* `Path.le` orders paths name by name.
-/

namespace Unscript

/-- A path: the slashes at its front, and its names. -/
structure Path where
  root : String := ""
  names : List String := []
  deriving DecidableEq, Repr

namespace Path

/-- The root of a text: two slashes at the front are kept, more count as one. -/
def rootOf (cs : List Char) : String :=
  match (cs.takeWhile (· == '/')).length with
  | 0 => ""
  | 2 => "//"
  | _ => "/"

/-- Whether a name says something. -/
def isName (s : String) : Bool :=
  s != "" && s != "."

/-- Reads a path. -/
def read (s : String) : Path where
  root := rootOf s.toList
  names := ((s.toList.splitOn '/').map String.ofList).filter isName

/-- Writes a path; the path of no names is a point. -/
def text (p : Path) : String :=
  let names := "/".intercalate p.names
  if p.root.isEmpty && p.names.isEmpty then "." else p.root ++ names

/-- The last name. -/
def name (p : Path) : String :=
  p.names.getLast?.getD ""

/-- The path without its last name. -/
def parent (p : Path) : Path :=
  { p with names := p.names.dropLast }

/-- How many characters stand before the last point, if that point splits the name. -/
def splitPoint? (cs : List Char) : Option Nat :=
  let after := (cs.reverse.takeWhile (· != '.')).length
  let before := cs.length - after - 1
  if cs.contains '.' && 0 < before && 0 < after then some before else none

/-- The last name before its last point. -/
def stem (p : Path) : String :=
  let cs := p.name.toList
  match splitPoint? cs with
  | some n => String.ofList (cs.take n)
  | none => p.name

/-- The last name from its last point on. -/
def suffix (p : Path) : String :=
  let cs := p.name.toList
  match splitPoint? cs with
  | some n => String.ofList (cs.drop n)
  | none => ""

/-- A path under another; a path with a root stands for itself. -/
def join (p q : Path) : Path :=
  if q.root.isEmpty then { p with names := p.names ++ q.names } else q

/-- All parts of a path, the root first. -/
def parts (p : Path) : List String :=
  (if p.root.isEmpty then [] else [p.root]) ++ p.names

/-- The order of paths: part by part. -/
def le (p q : Path) : Bool :=
  !List.lex q.parts p.parts fun a b => decide (a < b)

/-- Where the text recovered from a file goes: beside it or into a directory, with another suffix. -/
def output (p : Path) (suffix : String := ".gd") (directory : Option Path := none) : Path :=
  (directory.getD p.parent).join (read (p.stem ++ suffix))

end Path

end Unscript
