import Std.Data.HashSet
import Unscript.Script.Function

/-!
# Names of locals

Locals have slots; source text needs names. The name recorded for a slot is used when it is an
identifier and no keyword. Other slots are named after their position. A name that is taken gets a
number.

* `Source.NameTable.ofHeader` names the locals of a function, no two alike.
* `Source.isIdentifier` and `Source.isNodePath` recognise identifiers and paths of them. One line
  break at the end of either is overlooked.
-/

namespace Unscript.Source

/-- The words of the language. -/
def keywords : List String :=
  ["and", "as", "assert", "break", "breakpoint", "class", "class_name", "const", "continue",
    "elif", "else", "enum", "export", "extends", "false", "for", "func", "if", "in", "is",
    "master", "match", "not", "null", "onready", "or", "pass", "preload", "puppet", "remote",
    "return", "self", "setget", "signal", "slave", "static", "sync", "tool", "true", "var",
    "while", "yield", "INF", "NAN", "PI", "TAU"]

/-- Whether an identifier can begin with a character. -/
def startsIdentifier (c : Char) : Bool :=
  c.isAlpha || c == '_'

/-- Whether an identifier can go on with a character. -/
def continuesIdentifier (c : Char) : Bool :=
  c.isAlphanum || c == '_'

/-- A text without one line break at its end. -/
def withoutFinalBreak (cs : List Char) : List Char :=
  if cs.getLast? = some '\n' then cs.dropLast else cs

/-- Whether characters are an identifier. -/
def isWord : List Char → Bool
  | [] => false
  | c :: cs => startsIdentifier c && cs.all continuesIdentifier

/-- Whether a text is an identifier. -/
def isIdentifier (s : String) : Bool :=
  isWord (withoutFinalBreak s.toList)

/-- Whether a text is a path of identifiers with slashes between them. -/
def isNodePath (s : String) : Bool :=
  ((withoutFinalBreak s.toList).splitOn '/').all isWord

/-- The names of a function's locals. -/
structure NameTable where
  names : Array String
  arguments : Nat

namespace NameTable

/-- The name of a slot by its position. -/
def positional (h : Header) (slot : Nat) : String :=
  if slot < h.arguments then s!"arg{slot}" else s!"local{slot}"

/-- The name that a slot should have. -/
def preferred (h : Header) (slot : Nat) : String :=
  match h.localNames[slot]? with
  | some name => if isIdentifier name && !keywords.contains name then name else positional h slot
  | none => positional h slot

/-- The first of a name and its numbered forms that is free; one more form than there are names is
always enough. -/
def free (used : Std.HashSet String) (base : String) : String :=
  if !used.contains base then base
  else
    let numbered := (List.range used.size).findSome? fun k =>
      let name := s!"{base}_{k + 2}"
      if used.contains name then none else some name
    numbered.getD base

/-- Names one more slot. -/
def add (h : Header) (named : Array String × Std.HashSet String) (slot : Nat) :
    Array String × Std.HashSet String :=
  let name := free named.2 (preferred h slot)
  (named.1.push name, named.2.insert name)

/-- Names the locals of a function, in the order of their slots. -/
def ofHeader (h : Header) : NameTable where
  names := ((List.range h.locals).foldl (add h) (#[], Std.HashSet.emptyWithCapacity)).1
  arguments := h.arguments

/-- The name of a slot; one beyond the table is named after its position. -/
def name (t : NameTable) (slot : Nat) : String :=
  t.names[slot]?.getD s!"local{slot}"

/-- The names of the arguments. -/
def argumentNames (t : NameTable) : List String :=
  (List.range t.arguments).map t.name

end NameTable

end Unscript.Source
