import Unscript.Source.Body

/-!
# Source text of functions and units

* `Source.bodyText` and `Source.functionText` write a function without and with its first line.
* `Source.failureText` stands for a function that could not be recovered.
* `Source.unitText` puts the functions of a unit together, after comments on where they are from.
-/

namespace Unscript.Source

/-- What is written: the nodes of a function, with the blocks to label and the virtual block. -/
structure Tree where
  body : List Node
  targets : List Nat := []
  exit : Option Nat := none

/-- The tree of a structured function. -/
def Tree.ofStructured (s : Structured) : Tree :=
  ⟨s.body, s.gotoTargets.toList, s.exit⟩

/-- What all functions of a unit share: the dialect, the indentation and the names of functions. -/
structure Style where
  dialect : Dialect
  indent : String := "\t"
  functions : List String := []

/-- The slots that the blocks and iterations of a body use. -/
def slotsUsed (body : List Node) : List Nat :=
  (Node.preorderAll body).flatMap fun n =>
    match n with
    | .block b => b.statements.flatMap fun s => s.exprs.flatMap Expr.slotsRead
    | .forLoop _ element _ _ _ _ => [element]
    | _ => []

/-- The header of a body that has none: no arguments, and as many locals as the body uses. -/
def headerFor (body : List Node) : Header where
  locals := ((slotsUsed body).map (· + 1)).foldl max 0

/-- The writer of a function. -/
def writerOf (style : Style) (h : Header) (pool : List Constant) (t : Tree) : Writer where
  scope := {
    dialect := style.dialect
    pool := pool.toArray
    functions := style.functions.toArray
    names := NameTable.ofHeader h }
  indent := style.indent
  targets := t.targets
  exit := t.exit

/-- Lines with a line break after each. -/
def joined (lines : List String) : String :=
  if lines.isEmpty then "" else "\n".intercalate lines ++ "\n"

/-- The body of a function. -/
def bodyText (style : Style) (h : Option Header) (pool : List Constant) (t : Tree) :
    Except Fault String := do
  let w := writerOf style (h.getD (headerFor t.body)) pool t
  return joined ((← w.body 0 t.body).map w.render)

/-- The first line of a function. -/
def signature (h : Header) : String :=
  let arguments := commaList (NameTable.ofHeader h).argumentNames
  let line := s!"func {h.displayName}({arguments}):"
  if h.isStatic then "static " ++ line else line

/-- A function. -/
def functionText (style : Style) (h : Header) (pool : List Constant) (t : Tree) :
    Except Fault String := do
  let w := writerOf style h pool t
  return joined (signature h :: (← w.body 1 t.body).map w.render)

/-- What stands for a function that could not be recovered. -/
def failureText (style : Style) (h : Header) (message : String) : String :=
  joined [s!"{marker} failed to decompile {h.displayName}: {message}", signature h,
    style.indent ++ "pass"]

/-- Where a unit is from: a line on the unit and its dialect, and further lines. -/
structure Provenance where
  summary : String
  details : List String := []

namespace Provenance

/-- The provenance of a unit. -/
def ofUnit (name : String) (d : Dialect) (detection : Option String) (notes : List String) :
    Provenance where
  summary := s!"{name}: decompiled from {d.tag} ({d.label})"
  details := ((detection.filter fun text => !text.isEmpty).map ("detection: " ++ ·)).toList ++ notes

/-- The comments about the provenance. -/
def lines (p : Provenance) : List String :=
  ("# PROVENANCE: " ++ p.summary) :: p.details.map ("# " ++ ·)

end Provenance

/-- A unit: comments, what it extends, its class name, and its functions. -/
def unitText (functions : List String) (baseClass className : String)
    (provenance : Option Provenance) : String :=
  let head := (provenance.map (·.lines)).getD [] ++
    (if baseClass.isEmpty then [] else ["extends " ++ baseClass]) ++
    (if className.isEmpty then [] else ["class_name " ++ className])
  let first := if head.isEmpty then [] else [joined head]
  "\n".intercalate (first ++ functions)

end Unscript.Source
