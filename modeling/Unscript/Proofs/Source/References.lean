import Unscript.Proofs.Script.Commands
import Unscript.Proofs.Script.Reencoding
import Unscript.Proofs.Source.Clauses
import Unscript.Proofs.Source.Declarations

/-!
# What decoded functions refer to

The operands of a function that was decoded to its end are in range, and its constants are of kinds
that can be written. So everything that the expressions of its blocks refer to exists. If the names
that it leads to are plain, the names in its expressions are.

* `Source.referred`: the names that an operand leads to.
* `Source.PlainNames`: a function all of whose names are plain.

Results:
* `Source.isPlain_ofHeader`: the names of locals are plain.
* `Source.named_of_ofInstructions`: everything that the expressions of a tree refer to exists, and
  its names are plain.
-/

namespace Unscript

open Node (Each)

/-! ## Operands of actions -/

/-- What the first operand of an action refers to, if the action uses it for more than counting. -/
def Action.kind? : Action → Option OperandKind
  | .loadConst => some .constant
  | .loadSlot | .storeSlot => some .slot
  | .loadMember | .loadGlobal | .storeMember | .getAttr | .setAttr | .cast | .callMethod
  | .callSelf => some .name
  | .callBuiltin => some .builtin
  | _ => none

/-- The operations of the standard data have the operands of their actions. -/
theorem Registry.kind_of_mem : ∀ op ∈ knownOperations, ∀ a ∈ Action.ofMnemonic? op.mnemonic,
    ∀ kind ∈ a.kind?, op.operands.head? = some kind := by
  decide +kernel

theorem Instruction.Conforms.head?_kinds {d : Dialect} (hd : d.Regular) {locals : Nat}
    {pool : List Constant} {i : Instruction} (h : i.Conforms d locals pool) {a : Action}
    (ha : Action.ofMnemonic? i.mnemonic = some a) {kind : OperandKind} (hkind : a.kind? = some kind) :
    i.kinds.head? = some kind := by
  obtain ⟨op, hop, hmnemonic, hkinds, -⟩ := h.operation
  rw [hkinds]
  exact Registry.kind_of_mem op (hd.known hop) a (hmnemonic ▸ ha) kind hkind

/-! ## Names of locals -/

namespace Source

/-- A text that stands on one line is an identifier only if it is a word. -/
theorem isWord_of_isIdentifier {name : String} (h : isIdentifier name = true)
    (hunbroken : '\n' ∉ name.toList) : isWord name.toList = true := by
  have hlast : name.toList.getLast? ≠ some '\n' := fun hlast =>
    hunbroken (List.mem_of_getLast? hlast)
  unfold isIdentifier withoutFinalBreak at h
  rwa [if_neg hlast] at h

namespace NameTable

variable {h : Header}

theorem isPlain_positional (h : Header) (slot : Nat) : isPlain (positional h slot) = true := by
  unfold positional
  split
  · exact isPlain_numbered (by decide : isWord "arg".toList = true) slot
  · exact isPlain_numbered (by decide : isWord "local".toList = true) slot

theorem isPlain_preferred (hlocals : ∀ name ∈ h.localNames, '\n' ∉ name.toList) (slot : Nat) :
    isPlain (preferred h slot) = true := by
  unfold preferred
  split
  · rename_i name hname
    split
    · rename_i hfit
      obtain ⟨hidentifier, hkey⟩ := Bool.and_eq_true_iff.mp hfit
      unfold isPlain
      rw [isWord_of_isIdentifier hidentifier (hlocals name (List.mem_of_getElem? hname)), hkey]
      rfl
    · exact isPlain_positional h slot
  · exact isPlain_positional h slot

theorem isPlain_free {base : String} (hbase : isPlain base = true) (used : Std.HashSet String) :
    isPlain (free used base) = true := by
  have hnumbered (k : Nat) : isPlain s!"{base}_{k + 2}" = true := by
    have hword : isWord (base ++ "_").toList = true := by
      obtain ⟨hhead, hall⟩ := isWord_iff.mp (Bool.and_eq_true_iff.mp hbase).1
      rw [isWord_iff, String.toList_append, List.head?_append]
      refine ⟨?_, List.forall_mem_append.mpr ⟨hall, by simp; decide⟩⟩
      cases hbase : base.toList.head? with
      | none => simp [hbase] at hhead
      | some c => simpa [hbase] using hhead
    exact isPlain_numbered hword (k + 2)
  unfold free
  split
  · exact hbase
  · cases hfound : (List.range used.size).findSome? fun k =>
      let name := s!"{base}_{k + 2}"
      if used.contains name then none else some name with
    | none => exact hbase
    | some name =>
      obtain ⟨k, -, hk⟩ := List.exists_of_findSome?_eq_some hfound
      dsimp only at hk
      split at hk
      · cases hk
      · cases hk
        exact hnumbered k

/-- **The names of locals** are plain if the recorded ones stand on one line. -/
theorem isPlain_ofHeader (hlocals : ∀ name ∈ h.localNames, '\n' ∉ name.toList) (slot : Nat) :
    isPlain ((ofHeader h).name slot) = true := by
  have hadd : ∀ (slots : List Nat) (named : Array String × Std.HashSet String),
      (∀ name ∈ named.1, isPlain name = true) →
      ∀ name ∈ (slots.foldl (add h) named).1, isPlain name = true := by
    intro slots
    induction slots with
    | nil => exact fun _ h => h
    | cons slot slots ih =>
      intro named hnamed
      refine ih _ fun name hname => ?_
      rcases Array.mem_push.mp hname with hname | rfl
      · exact hnamed name hname
      · exact isPlain_free (isPlain_preferred hlocals slot) named.2
  unfold NameTable.name
  cases hname : (ofHeader h).names[slot]? with
  | none => exact isPlain_numbered (by decide : isWord "local".toList = true) slot
  | some name =>
    exact hadd _ _ (fun _ h => absurd h (Array.not_mem_empty _)) name (Array.mem_of_getElem? hname)

end NameTable

/-! ## Names in expressions -/

namespace Scope

variable {s : Scope} {e : Expr}

theorem Named.negate (h : s.Named e) : s.Named e.negate := by
  unfold Expr.negate
  split
  · exact h.child (List.mem_singleton_self _)
  · exact .of_children trivial fun _ hc => absurd hc List.not_mem_nil
  · exact .of_children trivial (List.forall_mem_singleton.mpr h)

/-- An operand that leads to what its kind asks for. -/
def Leads (s : Scope) : OperandKind → Nat → Prop
  | .constant, index => s.Refers (.const index)
  | .slot, slot => s.Refers (.slot slot)
  | .name, index => s.IsName index
  | .builtin, index => s.Refers (.group (.builtin index) [])
  | _, _ => True

/-- What an action makes of expressions whose names are plain has plain names. -/
theorem holds_product {i : Instruction} {a : Action} {args : List Expr}
    (htakes : a.takes i.operands.length)
    (hleads : ∀ kind ∈ a.kind?, ∀ index ∈ i.operands.head?, s.Leads kind index)
    (hargs : ∀ e ∈ args, s.Named e) (hlength : args.length = a.effect.taken i.operands) :
    (a.product i args).Holds (fun stmt => ∀ e ∈ stmt.exprs, s.Named e) s.Named := by
  have hfits := Action.fits_of_length htakes hlength
  have hnone : ∀ c ∈ ([] : List Expr), s.Named c := fun _ h => absurd h List.not_mem_nil
  generalize hoperands : i.operands = operands at hfits hleads hlength
  cases hfits with
  | nothing => trivial
  | breakpoint => exact hnone
  | loadSelf =>
    simp only [Action.product]
    exact .of_children trivial hnone
  | loadConst | loadSlot | loadMember | loadGlobal =>
    simp only [Action.product, hoperands]
    exact .of_children (hleads _ rfl _ rfl) hnone
  | storeSlot | storeMember =>
    simp only [Action.product, hoperands]
    exact List.forall_mem_cons.mpr ⟨.of_children (hleads _ rfl _ rfl) hnone, hargs⟩
  | getAttr | cast | callSelf | callBuiltin | callMethod =>
    simp only [Action.product, hoperands]
    exact .of_children (hleads _ rfl _ rfl) hargs
  | @setAttr name _ obj value =>
    simp only [Action.product, hoperands]
    obtain ⟨hobj, hvalue⟩ := List.forall_mem_cons.mp hargs
    have htarget : s.Named (.attr obj name) :=
      .of_children (hleads _ rfl _ rfl) (List.forall_mem_singleton.mpr hobj)
    exact List.forall_mem_cons.mpr ⟨htarget, hvalue⟩
  | getIndex | binary | unary | makeArray | yield =>
    simp only [Action.product]
    exact .of_children trivial hargs
  | setIndex =>
    simp only [Action.product]
    obtain ⟨hobj, hrest⟩ := List.forall_mem_cons.mp hargs
    obtain ⟨hkey, hvalue⟩ := List.forall_mem_cons.mp hrest
    have hparts := List.forall_mem_cons.mpr ⟨hobj, List.forall_mem_singleton.mpr hkey⟩
    exact List.forall_mem_cons.mpr ⟨.of_children trivial hparts, hvalue⟩
  | makeDictionary =>
    simp only [Action.product]
    -- Keys and values come in pairs.
    have heven : 2 ∣ args.length := by
      rw [hlength]
      exact Dvd.intro_left _ rfl
    exact .of_children heven hargs
  | drop | assert => exact hargs
  | consume => exact hargs _ (List.mem_singleton_self _)

end Scope

/-! ## Operands of decoded functions -/

/-- The names that an operand leads to: a string of the pool, or a builtin function. -/
def referred (d : Dialect) (pool : List Constant) : OperandKind × Nat → List String
  | (.name, index) =>
    match pool[index]? with
    | some (.string text) => [text]
    | _ => []
  | (.builtin, index) => (d.builtinName? index).toList.filter fun name => !name.isEmpty
  | _ => []

/-- A function whose names are plain: its own, those that its operands lead to, and those of the
functions of its unit. Names recorded for its locals stand on one line each; one that is no
identifier is not used. -/
structure PlainNames (style : Style) (f : Function) : Prop where
  function : isPlain f.header.displayName = true
  locals : ∀ name ∈ f.header.localNames, '\n' ∉ name.toList
  operands : ∀ i ∈ f.instructions, ∀ o ∈ i.kinds.zip i.operands,
    ∀ name ∈ referred style.dialect f.constants o, isPlain name = true
  unit : ∀ name ∈ style.functions, isPlain name = true

instance (style : Style) (f : Function) : Decidable (PlainNames style f) :=
  decidable_of_iff
    (isPlain f.header.displayName = true ∧ (∀ name ∈ f.header.localNames, '\n' ∉ name.toList) ∧
      (∀ i ∈ f.instructions, ∀ o ∈ i.kinds.zip i.operands,
        ∀ name ∈ referred style.dialect f.constants o, isPlain name = true) ∧
      ∀ name ∈ style.functions, isPlain name = true)
    ⟨fun ⟨h1, h2, h3, h4⟩ => ⟨h1, h2, h3, h4⟩, fun ⟨h1, h2, h3, h4⟩ => ⟨h1, h2, h3, h4⟩⟩

/-- The operands of a decoded instruction lead to what their kinds ask for. -/
theorem leads_of_conforms {d : Dialect} {locals : Nat} {pool : List Constant} {i : Instruction}
    {s : Scope} (hdialect : s.dialect = d) (hpool : s.pool = pool.toArray)
    (hslots : ∀ slot, isPlain (s.names.name slot) = true)
    (hwritable : ∀ c ∈ pool, s.Writable c)
    (hnames : ∀ o ∈ i.kinds.zip i.operands, ∀ name ∈ referred d pool o, isPlain name = true)
    (h : i.Conforms d locals pool) {o : OperandKind × Nat} (ho : o ∈ i.kinds.zip i.operands) :
    s.Leads o.1 o.2 := by
  obtain ⟨kind, index⟩ := o
  have hrange := h.inRange _ ho
  have hnames := hnames _ ho
  have hfound {c : Constant} (hc : pool[index]? = some c) : s.constant index = .ok c := by
    unfold Scope.constant
    rw [hpool, List.getElem?_toArray, hc]
  cases kind with
  | constant =>
    have hlt : index < pool.length := Decode.operandFault?_eq_none.mp hrange
    exact ⟨pool[index], hfound (List.getElem?_eq_getElem hlt), hwritable _ (List.getElem_mem hlt)⟩
  | slot => exact hslots index
  | name =>
    obtain ⟨text, htext⟩ := Decode.operandFault?_eq_none.mp hrange
    refine ⟨text, Outcome.bind_eq_ok.mpr ⟨_, hfound htext, rfl⟩, hnames text ?_⟩
    simp [referred, htext]
  | builtin =>
    intro name hname hne
    rw [hdialect] at hname
    refine hnames name ?_
    simp [referred, hname, hne]
  | argc | count | jump => trivial

/-! ## Names in trees -/

/-- The nodes of a plan whose blocks lift to expressions with plain names hold no others. -/
theorem named_of_drawn {p : Plan} {s : Scope} {n : Node}
    (hlift : ∀ id l, p.lift id = .ok l → l.Holds (fun stmt => ∀ e ∈ stmt.exprs, s.Named e) s.Named)
    (h : Structuring.Drawn p n) {c : Content} (hc : Carries n c) : ∀ e ∈ c.exprs, s.Named e := by
  have hstatements {b : BlockNode} (hb : p.Lifts b) :
      ∀ stmt ∈ b.statements, ∀ e ∈ stmt.exprs, s.Named e := by
    obtain ⟨l, hl, heq⟩ := hb
    rw [heq]
    exact (hlift _ l hl).statements
  have hvalue {e : Expr} (he : p.Yields e) : s.Named e := by
    obtain ⟨id, l, hl, heq⟩ := he
    exact (hlift id l hl).value e heq
  have hcondition {e : Expr} (he : p.Asks e) : s.Named e := by
    induction he with
    | value he => exact hvalue he
    | negate _ ih => exact ih.negate
  -- What is compared, and with what, are parts of the condition.
  have hcompared {e subject pattern : Expr} (he : p.Yields e)
      (hparts : e.comparison? = some (subject, pattern)) : s.Named subject ∧ s.Named pattern := by
    have hnamed := hvalue he
    rw [Structuring.comparison?_eq hparts] at hnamed
    exact ⟨hnamed.child List.mem_cons_self,
      hnamed.child (List.mem_cons_of_mem _ (List.mem_singleton_self _))⟩
  cases hc with
  | statement hstmt => exact hstatements h _ hstmt
  | setup hstmt => exact hstatements h.2.1 _ hstmt
  | latch hstmt => exact hstatements h.2.2 _ hstmt
  | test => exact List.forall_mem_singleton.mpr (hcondition h)
  | again =>
    refine List.forall_mem_singleton.mpr ?_
    rcases h.1 with rfl | hasks
    · exact .of_children trivial fun _ hc => absurd hc List.not_mem_nil
    · exact hcondition hasks
  | iteration => exact List.forall_mem_singleton.mpr (hvalue h.1)
  | subject =>
    obtain ⟨c, hc⟩ := List.exists_mem_of_ne_nil _ h.1
    obtain ⟨e, he, hparts⟩ := h.2.1 c hc
    exact List.forall_mem_singleton.mpr (hcompared he hparts).1
  | pattern hc =>
    obtain ⟨e, he, hparts⟩ := h.2.1 _ hc
    exact List.forall_mem_singleton.mpr (hcompared he hparts).2
  | @ret value =>
    cases value with
    | none => exact fun _ he => absurd he List.not_mem_nil
    | some e => exact List.forall_mem_singleton.mpr (hvalue h)

section Functions

variable {d : Dialect} {payload : List UInt8} {f : Function} {options : StructureOptions}
  {length : Option Nat} {s : Structured} {style : Style} {w : Writer}

/-- **The names of a decoded function.** If they are plain, everything that its tree writes refers to
what exists, by plain names. -/
theorem named_of_ofInstructions (hd : style.dialect.Registered)
    (hf : f ∈ (Script.decode style.dialect payload).functions) (hcomplete : f.complete)
    (hs : (Structured.ofInstructions style.dialect options f.instructions length).value = .ok s)
    (hplain : PlainNames style f) {t : Tree}
    (hw : writerOf style f.header f.constants t = w) :
    Each (fun n => ∀ c, Carries n c → ∀ e ∈ c.exprs, w.scope.Named e) s.body := by
  rcases Structured.drawn_of_ofInstructions hs with hnil | ⟨flow, hbuild, hdrawn⟩
  · rw [hnil]
    exact Node.each_nil
  have hconforms := (Script.decoded_of_mem hd hf hcomplete).conforms
  obtain ⟨starts, hcut⟩ := Structuring.exists_cut_of_build hbuild
  have hslots : ∀ slot, isPlain (w.scope.names.name slot) = true := by
    rw [← hw]
    exact NameTable.isPlain_ofHeader hplain.locals
  have hwritable : ∀ c ∈ f.constants, w.scope.Writable c := by
    intro c hc
    have hforeign := Script.isForeign_of_mem hf hc
    cases c with
    | foreign => cases hforeign
    | subscript i =>
      intro name hname
      rw [← hw] at hname
      exact hplain.unit name (List.mem_of_getElem? (List.getElem?_toArray.symm.trans hname))
    | _ => trivial
  refine hdrawn.mono fun n hn c hc => named_of_drawn (fun id l hl => ?_) hn hc
  refine Lifted.holds_of_ofInstructions (fun i hi => ?_) (fun i hi a ha args hargs hlength => ?_)
    (fun e offset he => List.forall_mem_singleton.mpr he) hl
  · exact (hconforms i (hcut.mem_instructions hi)).exists_balanced hd.regular
  · have hi := hcut.mem_instructions hi
    refine Scope.holds_product ha.takes (fun kind hkind index hindex => ?_) hargs hlength
    have hzip : (kind, index) ∈ i.kinds.zip i.operands := by
      obtain ⟨ks, hks⟩ := List.head?_eq_some_iff.mp
        ((hconforms i hi).head?_kinds hd.regular ha.action hkind)
      obtain ⟨os, hos⟩ := List.head?_eq_some_iff.mp hindex
      rw [hks, hos]
      exact List.mem_cons_self
    exact leads_of_conforms (by rw [← hw]; rfl) (by rw [← hw]; rfl) hslots hwritable
      (hplain.operands i hi) (hconforms i hi) hzip

end Functions

end Source

end Unscript
