import Unscript.Proofs.Lifting

/-!
# What an action does to the stack

Every action takes some values from the stack, as many as its operands say, and makes one thing of
them: a value for the stack, a statement, or the value for the ending of the block. The counts are
those that the table of operations gives for its mnemonic.

* `Effect`: how many values an action takes and leaves.
* `Product`: what an action makes of the values it takes.
* `Action.Fits`: operands and values that an action is made for.

Results:
* `Registry.effect_of_mem`: the table of operations gives the counts of the actions.
* `Symbolic.run_eq`: an action takes its values and makes its product, or some values are not there.
-/

namespace Unscript

/-! ## Counts -/

/-- How an action changes the count of values: it takes a fixed count, and if it is variadic as many
more as an operand says, times a factor. -/
structure Effect where
  pops : Nat
  pushes : Nat
  variadic : Option (Nat × Nat) := none

namespace Effect

/-- How many values are taken with some operands. -/
def taken (e : Effect) (operands : List Nat) : Nat :=
  (e.variadic.elim 0 fun v => operands[v.1]?.getD 0 * v.2) + e.pops

end Effect

/-- An operation whose entry in the table gives an effect. -/
structure Operation.Gives (op : Operation) (e : Effect) : Prop where
  pops : op.pops = e.pops
  pushes : op.pushes = e.pushes
  variadic : op.variadic.map (fun v => (op.operands.idxOf v.1, v.2)) =
    e.variadic.toList.map fun v => (v.1, (v.2 : Int))

namespace Operation

variable {op : Operation} {e : Effect}

instance (op : Operation) (e : Effect) : Decidable (op.Gives e) :=
  decidable_of_iff
    (op.pops = e.pops ∧ op.pushes = e.pushes ∧
      op.variadic.map (fun v => (op.operands.idxOf v.1, v.2)) =
        e.variadic.toList.map fun v => (v.1, (v.2 : Int)))
    ⟨fun ⟨h1, h2, h3⟩ => ⟨h1, h2, h3⟩, fun ⟨h1, h2, h3⟩ => ⟨h1, h2, h3⟩⟩

theorem Gives.stackPops (h : op.Gives e) (operands : List Nat) :
    op.stackPops operands = e.taken operands := by
  have hfold : op.stackPops operands =
      (op.variadic.map fun v => (op.operands.idxOf v.1, v.2)).foldl
        (fun total v => total + ((operands[v.1]?.getD 0 : Nat) : Int) * v.2) op.pops := by
    rw [List.foldl_map]
    rfl
  rw [hfold, h.variadic, h.pops]
  unfold Effect.taken
  cases e.variadic with
  | none => simp
  | some v => simp [Int.add_comm]

theorem Gives.stackDelta (h : op.Gives e) (operands : List Nat) :
    op.stackDelta operands = e.pushes - e.taken operands := by
  unfold Operation.stackDelta
  rw [h.pushes, h.stackPops]

end Operation

/-! ## Products -/

/-- What becomes of the values that an action takes. -/
inductive Product where
  | nothing
  | push (e : Expr)
  | act (stmt : Stmt)
  | value (e : Expr)

namespace Action

/-- How an action changes the count of values. -/
def effect : Action → Effect
  | .nothing | .breakpoint => { pops := 0, pushes := 0 }
  | .loadConst | .loadSlot | .loadSelf | .loadMember | .loadGlobal => { pops := 0, pushes := 1 }
  | .storeSlot | .storeMember | .drop | .assert | .consume => { pops := 1, pushes := 0 }
  | .getAttr | .unary _ | .cast => { pops := 1, pushes := 1 }
  | .setAttr => { pops := 2, pushes := 0 }
  | .getIndex | .binary _ => { pops := 2, pushes := 1 }
  | .setIndex => { pops := 3, pushes := 0 }
  | .callBuiltin | .callSelf => { pops := 0, pushes := 1, variadic := some (1, 1) }
  | .callMethod => { pops := 1, pushes := 1, variadic := some (1, 1) }
  | .makeArray | .yield => { pops := 0, pushes := 1, variadic := some (0, 1) }
  | .makeDictionary => { pops := 0, pushes := 1, variadic := some (0, 2) }

/-- What an action makes of the values that it takes, the deepest first. -/
def product (a : Action) (i : Instruction) (args : List Expr) : Product :=
  match a, i.operands, args with
  | .loadConst, index :: _, _ => .push (.const index)
  | .loadSlot, slot :: _, _ => .push (.slot slot)
  | .loadSelf, _, _ => .push .self
  | .loadMember, name :: _, _ => .push (.member name)
  | .loadGlobal, name :: _, _ => .push (.global name)
  | .storeSlot, slot :: _, [value] => .act (.assign (.slot slot) value i.offset)
  | .storeMember, name :: _, [value] => .act (.assign (.member name) value i.offset)
  | .getAttr, name :: _, [obj] => .push (.attr obj name)
  | .setAttr, name :: _, [obj, value] => .act (.assign (.attr obj name) value i.offset)
  | .getIndex, _, [obj, key] => .push (.index obj key)
  | .setIndex, _, [obj, key, value] => .act (.assign (.index obj key) value i.offset)
  | .binary op, _, [left, right] => .push (.binary op left right)
  | .unary op, _, [operand] => .push (.unary op operand)
  | .cast, name :: _, [value] => .push (.cast value name)
  | .callBuiltin, index :: _, _ => .push (.group (.builtin index) args)
  | .callMethod, name :: _, obj :: args => .push (.method obj name args)
  | .callSelf, name :: _, _ => .push (.group (.call name) args)
  | .makeArray, _, _ => .push (.group .array args)
  | .makeDictionary, _, _ => .push (.group .dictionary args)
  | .yield, _, _ => .push (.group .yield args)
  | .drop, _, [e] => .act (.expr e i.offset)
  | .assert, _, [test] => .act (.assert test i.offset)
  | .breakpoint, _, _ => .act (.breakpoint i.offset)
  | .consume, _, [value] => .value value
  | _, _, _ => .nothing

/-- Operands that an action finds, and values, the deepest first, as many as it takes. -/
inductive Fits {β : Type} : Action → List Nat → List β → Prop where
  | nothing {ops : List Nat} : Fits .nothing ops []
  | loadConst {k : Nat} {ks : List Nat} : Fits .loadConst (k :: ks) []
  | loadSlot {k : Nat} {ks : List Nat} : Fits .loadSlot (k :: ks) []
  | loadSelf {ops : List Nat} : Fits .loadSelf ops []
  | loadMember {k : Nat} {ks : List Nat} : Fits .loadMember (k :: ks) []
  | loadGlobal {k : Nat} {ks : List Nat} : Fits .loadGlobal (k :: ks) []
  | storeSlot {k : Nat} {ks : List Nat} {v : β} : Fits .storeSlot (k :: ks) [v]
  | storeMember {k : Nat} {ks : List Nat} {v : β} : Fits .storeMember (k :: ks) [v]
  | getAttr {k : Nat} {ks : List Nat} {u : β} : Fits .getAttr (k :: ks) [u]
  | setAttr {k : Nat} {ks : List Nat} {u v : β} : Fits .setAttr (k :: ks) [u, v]
  | getIndex {ops : List Nat} {u v : β} : Fits .getIndex ops [u, v]
  | setIndex {ops : List Nat} {u v w : β} : Fits .setIndex ops [u, v, w]
  | binary {op : BinaryOp} {ops : List Nat} {u v : β} : Fits (.binary op) ops [u, v]
  | unary {op : UnaryOp} {ops : List Nat} {v : β} : Fits (.unary op) ops [v]
  | cast {k : Nat} {ks : List Nat} {v : β} : Fits .cast (k :: ks) [v]
  | callBuiltin {k n : Nat} {vs : List β} : Fits .callBuiltin [k, n] vs
  | callMethod {k n : Nat} {u : β} {vs : List β} : Fits .callMethod [k, n] (u :: vs)
  | callSelf {k n : Nat} {vs : List β} : Fits .callSelf [k, n] vs
  | makeArray {n : Nat} {ks : List Nat} {vs : List β} : Fits .makeArray (n :: ks) vs
  | makeDictionary {n : Nat} {ks : List Nat} {vs : List β} : Fits .makeDictionary (n :: ks) vs
  | yield {n : Nat} {ks : List Nat} {vs : List β} : Fits .yield (n :: ks) vs
  | drop {ops : List Nat} {v : β} : Fits .drop ops [v]
  | assert {ops : List Nat} {v : β} : Fits .assert ops [v]
  | breakpoint {ops : List Nat} : Fits .breakpoint ops []
  | consume {ops : List Nat} {v : β} : Fits .consume ops [v]

/-- Values that are as many as an action takes fit it, with operands that it finds. -/
theorem fits_of_length {β : Type} {a : Action} {ops : List Nat} {vs : List β}
    (htakes : a.takes ops.length) (hvs : vs.length = a.effect.taken ops) : a.Fits ops vs := by
  cases a with
  | nothing | loadSelf | breakpoint =>
    obtain rfl := List.length_eq_zero_iff.mp hvs
    constructor
  | unary op | drop | assert | consume =>
    obtain ⟨v, rfl⟩ := List.length_eq_one_iff.mp hvs
    constructor
  | getIndex | binary op =>
    obtain ⟨u, v, rfl⟩ := List.length_eq_two.mp hvs
    constructor
  | setIndex =>
    obtain ⟨u, v, w, rfl⟩ := List.length_eq_three.mp hvs
    constructor
  | callBuiltin | callSelf =>
    obtain ⟨k, n, rfl⟩ := List.length_eq_two.mp (eq_of_beq htakes)
    constructor
  | callMethod =>
    obtain ⟨k, n, rfl⟩ := List.length_eq_two.mp (eq_of_beq htakes)
    obtain ⟨u, vs, rfl⟩ := List.exists_cons_of_length_eq_add_one hvs
    constructor
  | loadConst | loadSlot | loadMember | loadGlobal =>
    obtain ⟨k, ks, rfl⟩ := List.exists_cons_of_length_pos (of_decide_eq_true htakes)
    obtain rfl := List.length_eq_zero_iff.mp hvs
    constructor
  | storeSlot | storeMember | getAttr | cast =>
    obtain ⟨k, ks, rfl⟩ := List.exists_cons_of_length_pos (of_decide_eq_true htakes)
    obtain ⟨v, rfl⟩ := List.length_eq_one_iff.mp hvs
    constructor
  | setAttr =>
    obtain ⟨k, ks, rfl⟩ := List.exists_cons_of_length_pos (of_decide_eq_true htakes)
    obtain ⟨u, v, rfl⟩ := List.length_eq_two.mp hvs
    constructor
  | makeArray | makeDictionary | yield =>
    obtain ⟨k, ks, rfl⟩ := List.exists_cons_of_length_pos (of_decide_eq_true htakes)
    constructor

end Action

/-- The operations of the standard data suit the actions of their mnemonics and give their
effects. -/
theorem Registry.effect_of_mem : ∀ op ∈ knownOperations,
    ∃ a ∈ Action.ofMnemonic? op.mnemonic, op.Suits a ∧ op.Gives a.effect := by
  decide +kernel

namespace Symbolic

/-- Does with a product what it is for. -/
def receive (s : Symbolic) : Product → Symbolic
  | .nothing => s
  | .push e => s.push e
  | .act stmt => s.act stmt
  | .value e => { s with value := some e }

/-- **What an action does.** With its operands there, it takes its values and makes its product; it
fails only if some values are not there. -/
theorem run_eq {a : Action} {i : Instruction} (htakes : a.takes i.operands.length) (s : Symbolic)
    (block : Nat) : s.run a i block =
      match s.pop? (a.effect.taken i.operands) with
      | some (args, rest) => .ok (rest.receive (a.product i args))
      | none => .error (.underflow i block) := by
  obtain ⟨stack, statements, value⟩ := s
  generalize hoperands : i.operands = operands at htakes
  cases a with
  | nothing | loadSelf | breakpoint =>
    simp [run, pop?, Action.effect, Effect.taken, Action.product, receive, pure, Except.pure]
  | loadConst | loadSlot | loadMember | loadGlobal =>
    obtain _ | ⟨x, xs⟩ := operands
    · cases htakes
    · simp [run, pop?, Action.effect, Effect.taken, Action.product, receive, hoperands, bind,
        Except.bind, pure, Except.pure]
  | storeSlot | storeMember | getAttr | setAttr | cast =>
    obtain _ | ⟨x, xs⟩ := operands
    · cases htakes
    · rcases stack with _ | ⟨e₁, _ | ⟨e₂, stack⟩⟩ <;>
        simp [run, pop?, Action.effect, Effect.taken, Action.product, receive, hoperands, bind,
          Except.bind, pure, Except.pure]
  | unary op | getIndex | setIndex | binary op | drop | assert | consume =>
    rcases stack with _ | ⟨e₁, _ | ⟨e₂, _ | ⟨e₃, stack⟩⟩⟩ <;>
      simp [run, pop?, Action.effect, Effect.taken, Action.product, receive, bind,
        Except.bind, pure, Except.pure]
  | callBuiltin | callSelf =>
    obtain ⟨name, argc, rfl⟩ := List.length_eq_two.mp (eq_of_beq htakes)
    by_cases h : argc ≤ stack.length <;>
      simp [run, pop?, Action.effect, Effect.taken, Action.product, receive, hoperands, h, bind,
        Except.bind, pure, Except.pure]
  | callMethod =>
    obtain ⟨name, argc, rfl⟩ := List.length_eq_two.mp (eq_of_beq htakes)
    by_cases h : argc + 1 ≤ stack.length
    · have hpos : 0 < ((stack.take (argc + 1)).reverse).length := by
        rw [List.length_reverse, List.length_take]
        omega
      obtain ⟨obj, args, hargs⟩ := List.exists_cons_of_length_pos hpos
      simp [run, pop?, Action.effect, Effect.taken, Action.product, receive, hoperands, h, hargs,
        bind, Except.bind, pure, Except.pure]
    · simp [run, pop?, Action.effect, Effect.taken, hoperands, h, bind, Except.bind]
  | makeArray | makeDictionary | yield =>
    obtain _ | ⟨count, xs⟩ := operands
    · cases htakes
    · simp only [run, Action.effect, Effect.taken, Option.elim, List.getElem?_cons_zero,
        Option.getD_some, Nat.add_zero, Nat.mul_one, Nat.mul_comm, hoperands, bind, Except.bind]
      cases pop? _ _ with
      | none => rfl
      | some popped => simp [Action.product, receive, pure, Except.pure]

theorem step_eq {d : Dialect} {i : Instruction} {a : Action}
    (hlegal : d.missingFeature? i.mnemonic = none) (ha : Action.ofMnemonic? i.mnemonic = some a)
    (htakes : a.takes i.operands.length) (s : Symbolic) (block : Nat) :
    step d block s i =
      match s.pop? (a.effect.taken i.operands) with
      | some (args, rest) => .ok (rest.receive (a.product i args))
      | none => .error (.underflow i block) := by
  unfold step
  rw [hlegal, ha]
  exact run_eq htakes s block

end Symbolic

end Unscript
