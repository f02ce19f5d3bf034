import Unscript.Registry.Fault

/-!
# Chains of entries and their changes

An entry changes what it inherits from its base. Walking the bases gives a chain whose first entry
has none; applying the changes along it, from the first on, gives the state of the last. Entries
share their bases, so a state that was found is kept and not found again.

* `changeBuiltins` and `changeFeatures` apply one entry's changes, `changed` all of them to the
  state of its base.
* `resolveState` finds the state of an entry from the state of its base. An entry that is met twice
  on the way, or that is not there, is an error, so the way ends for all data.
* `stateOf` applies the changes along the chain that `chainOf` walks, without what was found before.
-/

namespace Unscript.Registry

/-! ## Changes -/

/-- The list with `name` after the first `after`. -/
def insertAfter (after name : String) : List String → List String
  | [] => []
  | x :: xs => if x = after then x :: name :: xs else x :: insertAfter after name xs

/-- The list with the first `old` replaced by `new`. -/
def renameFirst (old new : String) : List String → List String
  | [] => []
  | x :: xs => if x = old then new :: xs else x :: renameFirst old new xs

/-- Removes one builtin function. -/
def removeBuiltin (id : String) (table : List String) (name : String) : Resolved (List String) :=
  if name ∈ table then .ok (table.erase name) else .error (.removeBuiltin id name)

/-- Renames one builtin function. -/
def renameBuiltin (id : String) (table : List String) (r : String × String) :
    Resolved (List String) :=
  if r.1 ∈ table then .ok (renameFirst r.1 r.2 table) else .error (.renameBuiltin id r.1)

/-- Inserts one builtin function. -/
def insertBuiltin (id : String) (table : List String) (i : Insertion) : Resolved (List String) :=
  match i.name with
  | none => .error .absent
  | some name =>
    if name ∈ table then .error (.insertBuiltin id name)
    else
      match i.after with
      | none => .ok (table ++ [name])
      | some after =>
        if after ∈ table then .ok (insertAfter after name table)
        else .error (.insertAfter id name after)

/-- Applies a change to the table of builtin functions. -/
def changeBuiltins (id : String) (table : List String) (c : BuiltinChange) :
    Resolved (List String) := do
  let removed ← c.remove.foldlM (removeBuiltin id) table
  let renamed ← c.rename.foldlM (renameBuiltin id) removed
  c.insert.foldlM (insertBuiltin id) renamed

/-- The set with a feature added at the end if it is not there. -/
def addFeature (set : List String) (feature : String) : List String :=
  if feature ∈ set then set else set ++ [feature]

/-- Applies a change to the set of features; every feature named has to be known. -/
def changeFeatures (id : String) (known set : List String) (c : FeatureChange) :
    Resolved (List String) :=
  match (c.add ++ c.remove).find? (· ∉ known) with
  | some feature => .error (.unknownFeature id feature)
  | none => .ok ((c.add.foldl addFeature set).filter (· ∉ c.remove))

/-! ## Chains of bases -/

/-- An entry with its canonical id. -/
abbrev Named := String × Entry

/-- Walks from `id` to the entry without a base. The result starts with that entry and ends with
`id`'s. `unvisited` are the entries not met so far and `chain` those met, in order. -/
def chainOf (unvisited : List Named) (chain : List String) (id : String) :
    Resolved (List Named) :=
  if id ∈ chain then .error (.cyclicBase id (chain ++ [id]))
  else
    match _h : unvisited.find? (·.1 == id) with
    | none => .error (.unknownBase (chain.getLast?.getD id) id)
    | some named =>
      match named.2.base with
      | none => .ok [named]
      | some key =>
        match idOf key with
        | .error e => .error e
        | .ok base =>
          match chainOf (unvisited.eraseP (·.1 == id)) (chain ++ [id]) base with
          | .error e => .error e
          | .ok above => .ok (above ++ [named])
termination_by unvisited.length
decreasing_by
  have hm := List.mem_of_find?_eq_some _h
  have hp := List.find?_some _h
  have := List.length_eraseP_of_mem (p := fun e => e.1 == id) hm hp
  have := List.length_pos_of_mem hm
  omega

/-- What a dialect inherits: its era, its builtin functions and its features. -/
structure State where
  era : String
  builtins : List String
  features : List String
  deriving DecidableEq, Repr

/-- The era with a name. -/
def eraNamed? (eras : List EraEntry) (name : String) : Option EraEntry :=
  eras.find? (·.name == name)

/-- The state before the changes of an entry: its base's, or the bare era, under its own era if it
names one. -/
def inherited (eras : List EraEntry) (id : String) (e : Entry) : Option State → Resolved State
  | none => do
    let era ← require s!"version {id}" "era" e.era
    match eraNamed? eras era with
    | none => .error (.unknownEra id era)
    | some data => pure ⟨era, data.builtins, []⟩
  | some base => do
    let era := e.era.getD base.era
    match eraNamed? eras era with
    | none => .error (.unknownEra id era)
    | some _ => pure { base with era }

/-- The state after the changes of an entry, from that of its base. -/
def changed (eras : List EraEntry) (known : List String) (base : Option State) (named : Named) :
    Resolved State := do
  let s ← inherited eras named.1 named.2 base
  let builtins ← changeBuiltins named.1 s.builtins named.2.builtins
  let features ← changeFeatures named.1 known s.features named.2.features
  pure { s with builtins, features }

/-! ## States -/

/-- The states found so far, by the ids of their entries. -/
abbrev Found := List (String × State)

/-- The state of an entry becomes known. -/
def keepState (eras : List EraEntry) (known : List String) (base : Option State) (named : Named)
    (found : Found) : Resolved (State × Found) := do
  let s ← changed eras known base named
  pure (s, (named.1, s) :: found)

/-- Resolves the state of `id` with those found before. `unvisited` are the entries not met on the
way so far and `chain` the ids of those met, in order. -/
def resolveState (eras : List EraEntry) (known : List String) (unvisited : List Named) (found : Found)
    (chain : List String) (id : String) : Resolved (State × Found) :=
  match found.lookup id with
  | some s => .ok (s, found)
  | none =>
    if id ∈ chain then .error (.cyclicBase id (chain ++ [id]))
    else
      match _h : unvisited.find? (·.1 == id) with
      | none => .error (.unknownBase (chain.getLast?.getD id) id)
      | some named =>
        match named.2.base with
        | none => keepState eras known none named found
        | some key =>
          match idOf key with
          | .error e => .error e
          | .ok base =>
            match resolveState eras known (unvisited.eraseP (·.1 == id)) found (chain ++ [id]) base with
            | .error e => .error e
            | .ok (s, found) => keepState eras known (some s) named found
termination_by unvisited.length
decreasing_by
  have hm := List.mem_of_find?_eq_some _h
  have hp := List.find?_some _h
  have := List.length_eraseP_of_mem (p := fun e => e.1 == id) hm hp
  have := List.length_pos_of_mem hm
  omega

/-- The changes of one more entry of a chain. -/
def step (eras : List EraEntry) (known : List String) (base : Option State) (named : Named) :
    Resolved (Option State) :=
  some <$> changed eras known base named

/-- The state of an entry: the changes along its chain, from the root on. -/
def stateOf (eras : List EraEntry) (known : List String) (entries : List Named) (id : String) :
    Resolved State := do
  let chain ← chainOf entries [] id
  match ← chain.foldlM (step eras known) none with
  | some s => pure s
  | none => .error .absent

end Unscript.Registry
