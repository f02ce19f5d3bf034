import Unscript.Registry.Chain
import Unscript.Registry.Encoding

/-!
# Resolving registry data

Every entry of the data becomes a dialect. Its builtin functions and features are those of its
base, changed; the base of an entry without one is the bare era. The encoding comes from the
entry's own era, or else from its base's.

* `Registry.ofSource` resolves all entries, or says what is wrong with the data.
* `Registry.lookup?` and `Registry.get?` find a dialect by a key.
-/

namespace Unscript

namespace Registry

/-! ## Dialects -/

/-- Whether a width has a name of its own. -/
def isWidthName (name : String) : Bool :=
  name == "opcode" || (OperandKind.ofText? name).isSome

/-- Resolves the dialect of an entry from its state and the encoding of its era. -/
def dialect (gates : List (String × String)) (named : Named) (s : State) (enc : Encoding) :
    Resolved Dialect := do
  let era := enc.era
  let context := s!"era {era.name}"
  let constants ← require context "constants" era.constants
  let tags ← require context "constant_tags" era.tags
  match ConstantKind.all.find? fun k => (tags.lookup k.text).isNone with
  | some kind => .error (.eraTag era.name kind.text)
  | none =>
    let format ← countValue (← require s!"version {named.1}" "bytecode" named.2.format)
    let engineMajor ← countValue era.engineMajor
    let variantMajor ← countValue era.variantMajor
    let others ← ((era.widths.getD []).filter fun w => !isWidthName w.1).mapM fun w => do
      pure (w.1, ← countValue w.2)
    let intWidth ← requiredCount constants "int_width"
    let floatWidth ← requiredCount constants "float_width"
    let lineWidth ← countValue era.lineWidth
    pure {
      id := named.1
      release := named.2.release
      date := named.2.date
      format
      era := era.name
      engineMajor
      variantMajor
      summary := named.2.summary
      opcodes := enc.opcodes
      widths := { enc.widths with others }
      constants := { intWidth, floatWidth, tags }
      lineWidth
      builtins := s.builtins
      features := s.features.mergeSort (· ≤ ·)
      gates }

/-- Gives every entry its id; no two may share one. -/
def nameEntries : List Named → List Entry → Resolved (List Named)
  | named, [] => .ok named.reverse
  | named, e :: rest => do
    let id ← idOf (← require "version entry" "commit" e.commit)
    if named.any (·.1 == id) then .error (.duplicateEntry id)
    else nameEntries ((id, e) :: named) rest

/-- Checks that a gate names a known mnemonic and a known feature. -/
def checkGate (ops : List Operation) (known : List String) (gate : String × String) :
    Resolved Unit :=
  if ops.all (·.mnemonic != gate.1) then .error (.gateMnemonic gate.1)
  else if gate.2 ∉ known then .error (.gateFeature gate.1 gate.2)
  else .ok ()

/-- Resolves the dialect of an entry with the encoding of the era that its state names. -/
def dialectIn (gates : List (String × String)) (encodings : List Encoding) (named : Named)
    (s : State) : Resolved Dialect :=
  match encodings.find? (·.era.name == s.era) with
  | some enc => dialect gates named s enc
  | none => .error .absent

/-- Resolves the dialects of entries one after another, each with the states found before. -/
def resolveEntries (eras : List EraEntry) (known : List String) (entries : List Named)
    (build : Named → State → Resolved Dialect) : Found → List Named → Resolved (List Dialect)
  | _, [] => .ok []
  | found, named :: rest => do
    let (s, found) ← resolveState eras known entries found [] named.1
    let d ← build named s
    let ds ← resolveEntries eras known entries build found rest
    pure (d :: ds)

/-- Resolves the dialects of registry data, in the order of the entries. -/
def resolveAll (src : Source) : Resolved (List Dialect) := do
  let ops ← (← require "registry" "instructions" src.operations).mapM operation
  let known ← require "registry" "features" src.features
  src.gates.forM (checkGate ops known)
  let eras ← require "registry" "eras" src.eras
  let entries ← nameEntries [] (← require "registry" "versions" src.entries)
  let encodings ← eras.mapM (encoding ops)
  resolveEntries eras known entries (dialectIn src.gates encodings) [] entries

end Registry

/-- An ordered collection of dialects with the data it was resolved from. -/
structure Registry where
  source : Registry.Source
  dialects : List Dialect

namespace Registry

/-- Resolves registry data. -/
def ofSource (src : Source) : Resolved Registry := do
  let ds ← resolveAll src
  pure { source := src, dialects := ds }

/-- The registry with further entries. -/
def extend (r : Registry) (more : List Entry) : Resolved Registry :=
  ofSource (r.source.extend more)

/-- The ids in registry order. -/
def ids (r : Registry) : List String :=
  r.dialects.map (·.id)

/-- The dialect of an id. -/
def withId? (r : Registry) (id : String) : Option Dialect :=
  r.dialects.find? (·.id == id)

/-- The dialect of a key; a key that spells no id is an error. -/
def lookup? (r : Registry) (key : Key) : Except KeyError (Option Dialect) :=
  key.id.map r.withId?

/-- Whether a dialect of the key is there. -/
def contains (r : Registry) (key : Key) : Bool :=
  match r.lookup? key with
  | .ok (some _) => true
  | _ => false

/-- The dialect of a key, or none when the key spells no id or an unknown one. -/
def get? (r : Registry) (key : Key) : Option Dialect :=
  match r.lookup? key with
  | .ok found => found
  | .error _ => none

/-- The dialects of a bytecode format. -/
def withFormat (r : Registry) (format : Int) : List Dialect :=
  r.dialects.filter (·.format == format)

end Registry

end Unscript
