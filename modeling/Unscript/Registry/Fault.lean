import Unscript.Registry.Source

/-!
# What can be wrong with registry data

* `RegistryFault` lists the causes and `RegistryFault.message` words them.
* `Registry.require` reads a field that has to be there.
-/

namespace Unscript

open Registry (CountFault) in
/-- What is wrong with registry data. -/
inductive RegistryFault where
  | missing (context key : String)
  | operandKind (mnemonic kind : String)
  | variadicKind (mnemonic kind : String)
  | transfer (mnemonic word : String)
  | gateMnemonic (mnemonic : String)
  | gateFeature (mnemonic feature : String)
  | duplicateEntry (id : String)
  | cyclicBase (id : String) (chain : List String)
  | unknownBase (id base : String)
  | unknownEra (id era : String)
  | removeBuiltin (id name : String)
  | renameBuiltin (id name : String)
  | insertBuiltin (id name : String)
  | insertAfter (id name after : String)
  | unknownFeature (id feature : String)
  | eraMnemonic (era mnemonic : String)
  | eraDuplicate (era mnemonic : String)
  | eraWidth (era kind : String)
  | eraNumbering (era : String)
  | eraTag (era kind : String)
  | key (e : KeyError)
  | count (e : CountFault)
  | absent
  deriving DecidableEq, Repr

open Text (quoted) in
/-- The words for a fault, empty for those that carry none. -/
def RegistryFault.message : RegistryFault → String
  | .missing context field => s!"{context}: missing {quoted field}"
  | .operandKind m kind => s!"instruction {m}: unknown operand kind {quoted kind}"
  | .variadicKind m kind => s!"instruction {m}: variadic operand {quoted kind} is not an operand"
  | .transfer m word => s!"instruction {m}: unknown flow {quoted word}"
  | .gateMnemonic m => s!"gated opcode {quoted m} is not a known instruction"
  | .gateFeature m feature => s!"gated opcode {quoted m} names unknown feature {quoted feature}"
  | .duplicateEntry id => s!"duplicate bytecode version {id}"
  | .cyclicBase id chain =>
    let path := " -> ".intercalate chain
    s!"version {id}: cyclic base chain {path}"
  | .unknownBase id base => s!"version {id}: unknown base {base}"
  | .unknownEra id era => s!"version {id}: unknown era {quoted era}"
  | .removeBuiltin id name => s!"version {id}: cannot remove unknown builtin {quoted name}"
  | .renameBuiltin id name => s!"version {id}: cannot rename unknown builtin {quoted name}"
  | .insertBuiltin id name => s!"version {id}: builtin {quoted name} already present"
  | .insertAfter id name after =>
    s!"version {id}: cannot insert {quoted name} after unknown builtin {quoted after}"
  | .unknownFeature id feature => s!"version {id}: unknown feature {quoted feature}"
  | .eraMnemonic era m => s!"era {era}: unknown instruction {quoted m}"
  | .eraDuplicate era m => s!"era {era}: instruction {quoted m} numbered twice"
  | .eraWidth era kind => s!"era {era}: invalid width for {quoted kind}"
  | .eraNumbering era => s!"era {era}: opcode numbering exceeds opcode width"
  | .eraTag era kind => s!"era {era}: missing constant tag for {quoted kind}"
  | .key e => e.message
  | .count _ => ""
  | .absent => ""

namespace Registry

/-- The outcome of resolving data. -/
abbrev Resolved := Except RegistryFault

/-- The value of a field that has to be there. -/
def require {α : Type} (context key : String) : Option α → Resolved α
  | some a => .ok a
  | none => .error (.missing context key)

/-- The integer that a count stands for. -/
def countValue (c : Count) : Resolved Int :=
  c.value.mapError .count

/-- The id that a key spells. -/
def idOf (k : Key) : Resolved String :=
  k.id.mapError .key

end Registry

end Unscript
