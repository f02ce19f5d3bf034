import Unscript.Proofs.Lifting.Depth

/-!
# Machines

What a program means depends on what its operations do to values and to the state of the program. An
interpretation of the operations says so: loads read the state, operators compute, calls may read
and change the state, stores change it. With an interpretation, instructions run on a stack of values,
and the statements and expressions made of them run one after another and from left to right.

* `Machine`: an interpretation of the operations.
* `Machine.perform`: what an operation does with the values it takes.
* `Machine.run`: instructions on a stack of values.
* `Machine.eval`, `Machine.exec`, `Machine.runLifted`: expressions, statements and lifted blocks.
* `Expr.isFixed`: whether the value of an expression depends on no state.

Results:
* `Machine.exists_eval_eq`: the value of a fixed expression depends on no state.
* `Machine.perform_product`: what an operation does with values is what the product of its action
  does with the expressions for them.
-/

namespace Unscript

/-- An interpretation of the operations on the values of `α` and the states of `σ`. -/
structure Machine (σ α : Type) where
  const : Nat → α
  bool : Bool → α
  self : α
  slot : Nat → σ → α
  member : Nat → σ → α
  global : Nat → σ → α
  attr : α → Nat → σ → α
  index : α → α → σ → α
  binary : BinaryOp → α → α → α
  unary : UnaryOp → α → α
  cast : α → Nat → α
  array : List α → α
  dictionary : List α → α
  builtin : Nat → List α → σ → α × σ
  method : α → Nat → List α → σ → α × σ
  call : Nat → List α → σ → α × σ
  yield : List α → σ → α × σ
  storeSlot : Nat → α → σ → σ
  storeMember : Nat → α → σ → σ
  storeAttr : α → Nat → α → σ → σ
  storeIndex : α → α → α → σ → σ
  discard : α → σ → σ
  assert : α → σ → σ
  breakpoint : σ → σ

/-- What an operation does: it changes the state, leaves a value on the stack as well, or takes one
for the ending of the block. -/
inductive Reaction (σ α : Type) where
  | act (state : σ)
  | push (value : α) (state : σ)
  | take (value : α) (state : σ)

/-- A stack of values, its top first, with the state and the value taken for the ending. -/
structure Frame (σ α : Type) where
  stack : List α := []
  state : σ
  taken : Option α := none

namespace Frame

variable {σ α : Type}

/-- Goes on with what an operation did; `rest` are the values that it did not take. -/
def receive (f : Frame σ α) (rest : List α) : Reaction σ α → Frame σ α
  | .act s => { f with stack := rest, state := s }
  | .push v s => { f with stack := v :: rest, state := s }
  | .take v s => { stack := rest, state := s, taken := some v }

end Frame

namespace Machine

variable {σ α : Type}

/-! ## Instructions -/

/-- What an operation does with an operand, a state, and the values that it takes, the deepest
first. -/
abbrev Meaning (σ α : Type) := Nat → σ → List α → Option (Reaction σ α)

/-- An operation that takes no values. -/
def onNone (o : Reaction σ α) : List α → Option (Reaction σ α)
  | [] => some o
  | _ => none

/-- An operation that takes one value. -/
def onOne (f : α → Reaction σ α) : List α → Option (Reaction σ α)
  | [v] => some (f v)
  | _ => none

/-- An operation that takes two values. -/
def onTwo (f : α → α → Reaction σ α) : List α → Option (Reaction σ α)
  | [u, v] => some (f u v)
  | _ => none

/-- An operation that takes three values. -/
def onThree (f : α → α → α → Reaction σ α) : List α → Option (Reaction σ α)
  | [u, v, w] => some (f u v w)
  | _ => none

/-- An operation that takes a value and its arguments. -/
def onSome (f : α → List α → Reaction σ α) : List α → Option (Reaction σ α)
  | u :: vs => some (f u vs)
  | _ => none

/-- What a call leaves. -/
def called (r : α × σ) : Reaction σ α :=
  .push r.1 r.2

/-- What the operations do, by their mnemonics. -/
def meanings (m : Machine σ α) : List (String × Meaning σ α) :=
  [("NOP", fun _ s => onNone (.act s)),
    ("LOAD_CONST", fun k s => onNone (.push (m.const k) s)),
    ("LOAD_LOCAL", fun k s => onNone (.push (m.slot k s) s)),
    ("LOAD_SELF", fun _ s => onNone (.push m.self s)),
    ("LOAD_MEMBER", fun k s => onNone (.push (m.member k s) s)),
    ("LOAD_GLOBAL", fun k s => onNone (.push (m.global k s) s)),
    ("STORE_LOCAL", fun k s => onOne fun v => .act (m.storeSlot k v s)),
    ("STORE_MEMBER", fun k s => onOne fun v => .act (m.storeMember k v s)),
    ("GET_ATTR", fun k s => onOne fun u => .push (m.attr u k s) s),
    ("SET_ATTR", fun k s => onTwo fun u v => .act (m.storeAttr u k v s)),
    ("GET_INDEX", fun _ s => onTwo fun u k => .push (m.index u k s) s),
    ("SET_INDEX", fun _ s => onThree fun u k v => .act (m.storeIndex u k v s)),
    ("AS", fun k s => onOne fun v => .push (m.cast v k) s),
    ("CALL_BUILTIN", fun k s vs => some (called (m.builtin k vs s))),
    ("CALL_METHOD", fun k s => onSome fun u vs => called (m.method u k vs s)),
    ("CALL_SELF", fun k s vs => some (called (m.call k vs s))),
    ("MAKE_ARRAY", fun _ s vs => some (.push (m.array vs) s)),
    ("MAKE_DICT", fun _ s vs => some (.push (m.dictionary vs) s)),
    ("YIELD", fun _ s vs => some (called (m.yield vs s))),
    ("POP", fun _ s => onOne fun v => .act (m.discard v s)),
    ("ASSERT", fun _ s => onOne fun v => .act (m.assert v s)),
    ("BREAKPOINT", fun _ s => onNone (.act (m.breakpoint s))),
    ("JUMP", fun _ s => onNone (.act s)),
    ("JUMP_IF_TRUE", fun _ s => onOne fun v => .take v s),
    ("JUMP_IF_FALSE", fun _ s => onOne fun v => .take v s),
    ("ITER_BEGIN", fun _ s => onOne fun v => .take v s),
    ("ITER_NEXT", fun _ s => onNone (.act s)),
    ("RETURN", fun _ s => onOne fun v => .take v s)] ++
  (UnaryOp.all.map fun op => (op.mnemonic, fun _ s => onOne fun v => .push (m.unary op v) s)) ++
  BinaryOp.all.map fun op => (op.mnemonic, fun _ s => onTwo fun u v => .push (m.binary op u v) s)

/-- What an instruction does with the values that it takes. -/
def perform (m : Machine σ α) (i : Instruction) (args : List α) (s : σ) : Option (Reaction σ α) :=
  (m.meanings.lookup i.mnemonic).bind fun f => f (i.operands.headD 0) s args

/-- Runs an instruction. It takes as many values as the table of operations says. -/
def step (d : Dialect) (m : Machine σ α) (f : Frame σ α) (i : Instruction) : Option (Frame σ α) :=
  let n := (d.pops i).toNat
  if n ≤ f.stack.length then
    (m.perform i (f.stack.take n).reverse f.state).map (f.receive (f.stack.drop n))
  else none

/-- Runs instructions from an empty stack: the state and the value taken at the end. -/
def run (d : Dialect) (m : Machine σ α) (is : List Instruction) (s : σ) : Option (σ × Option α) :=
  (is.foldlM (m.step d) { state := s }).map fun f => (f.state, f.taken)

/-! ## Expressions and statements -/

/-- What is done with the values of a group. -/
def gather (m : Machine σ α) (of : Grouping) (vs : List α) (s : σ) : α × σ :=
  match of with
  | .builtin index => m.builtin index vs s
  | .call name => m.call name vs s
  | .array => (m.array vs, s)
  | .dictionary => (m.dictionary vs, s)
  | .yield => m.yield vs s

/-- Evaluates an expression, its parts from left to right. -/
def eval (m : Machine σ α) : Expr → σ → α × σ
  | .const index, s => (m.const index, s)
  | .bool b, s => (m.bool b, s)
  | .slot k, s => (m.slot k s, s)
  | .self, s => (m.self, s)
  | .member name, s => (m.member name s, s)
  | .global name, s => (m.global name s, s)
  | .attr obj name, s =>
    let (u, s) := m.eval obj s
    (m.attr u name s, s)
  | .index obj key, s =>
    let (u, s) := m.eval obj s
    let (k, s) := m.eval key s
    (m.index u k s, s)
  | .binary op left right, s =>
    let (u, s) := m.eval left s
    let (v, s) := m.eval right s
    (m.binary op u v, s)
  | .unary op operand, s =>
    let (v, s) := m.eval operand s
    (m.unary op v, s)
  | .cast value name, s =>
    let (v, s) := m.eval value s
    (m.cast v name, s)
  | .method obj name args, s =>
    let (u, s) := m.eval obj s
    let (vs, s) := evalAll m args s
    m.method u name vs s
  | .group of items, s =>
    let (vs, s) := evalAll m items s
    m.gather of vs s
where
  /-- Evaluates expressions one after another. -/
  evalAll (m : Machine σ α) : List Expr → σ → List α × σ
  | [], s => ([], s)
  | e :: es, s =>
    let (v, s) := m.eval e s
    let (vs, s) := evalAll m es s
    (v :: vs, s)

/-- Stores a value where an expression stands for a place. -/
def store (m : Machine σ α) (target : Expr) (value : Expr) (s : σ) : σ :=
  match target with
  | .slot k =>
    let (v, s) := m.eval value s
    m.storeSlot k v s
  | .member name =>
    let (v, s) := m.eval value s
    m.storeMember name v s
  | .attr obj name =>
    let (u, s) := m.eval obj s
    let (v, s) := m.eval value s
    m.storeAttr u name v s
  | .index obj key =>
    let (u, s) := m.eval obj s
    let (k, s) := m.eval key s
    let (v, s) := m.eval value s
    m.storeIndex u k v s
  | _ => s

/-- Executes a statement. -/
def exec (m : Machine σ α) (stmt : Stmt) (s : σ) : σ :=
  match stmt with
  | .assign target value _ _ => m.store target value s
  | .expr e _ _ =>
    let (v, s) := m.eval e s
    m.discard v s
  | .assert test _ =>
    let (v, s) := m.eval test s
    m.assert v s
  | .breakpoint _ => m.breakpoint s

/-- Executes statements in order. -/
def execAll (m : Machine σ α) (stmts : List Stmt) (s : σ) : σ :=
  stmts.foldl (fun s stmt => m.exec stmt s) s

/-- Evaluates the value for the ending of a block, if there is one. -/
def evalEnding (m : Machine σ α) (value : Option Expr) (s : σ) : σ × Option α :=
  match value with
  | some e =>
    let (v, s) := m.eval e s
    (s, some v)
  | none => (s, none)

/-- Executes a lifted block: its statements in order, then the value for its ending. -/
def runLifted (m : Machine σ α) (l : Lifted) (s : σ) : σ × Option α :=
  m.evalEnding l.value (m.execAll l.statements s)

end Machine

/-! ## Expressions that depend on no state -/

namespace Expr

/-- Whether evaluating the expression alone, without its parts, needs no state. -/
def needsNoState : Expr → Bool
  | .slot _ | .member _ | .global _ | .attr _ _ | .index _ _ | .method _ _ _
  | .group (.builtin _) _ | .group (.call _) _ | .group .yield _ => false
  | _ => true

/-- Whether the value of the expression depends on no state, and evaluating it changes none. -/
def isFixed (e : Expr) : Bool :=
  e.walk.all needsNoState

@[simp] theorem isFixed_binary (op : BinaryOp) (left right : Expr) :
    (binary op left right).isFixed = (left.isFixed && right.isFixed) := by
  simp [isFixed, walk, needsNoState]

@[simp] theorem isFixed_unary (op : UnaryOp) (operand : Expr) :
    (unary op operand).isFixed = operand.isFixed := by
  simp [isFixed, walk, needsNoState]

@[simp] theorem isFixed_cast (value : Expr) (name : Nat) :
    (cast value name).isFixed = value.isFixed := by
  simp [isFixed, walk, needsNoState]

@[simp] theorem isFixed_group (of : Grouping) (items : List Expr) :
    (group of items).isFixed = ((group of []).needsNoState && items.all isFixed) := by
  cases of <;> simp [isFixed, walk, walkAll_eq_flatMap, needsNoState, List.all_flatMap] <;> rfl

end Expr

namespace Machine

variable {σ α : Type}

theorem evalAll_append (m : Machine σ α) (es es' : List Expr) (s : σ) :
    eval.evalAll m (es ++ es') s =
      ((eval.evalAll m es s).1 ++ (eval.evalAll m es' (eval.evalAll m es s).2).1,
        (eval.evalAll m es' (eval.evalAll m es s).2).2) := by
  induction es generalizing s with
  | nil => rfl
  | cons e es ih =>
    simp only [List.cons_append, eval.evalAll]
    rw [ih]

theorem length_evalAll (m : Machine σ α) (es : List Expr) (s : σ) :
    (eval.evalAll m es s).1.length = es.length := by
  induction es generalizing s with
  | nil => rfl
  | cons e es ih => simp [eval.evalAll, ih]

theorem execAll_concat (m : Machine σ α) (stmts : List Stmt) (stmt : Stmt) (s : σ) :
    m.execAll (stmts ++ [stmt]) s = m.exec stmt (m.execAll stmts s) := by
  simp [execAll]

mutual

/-- **Fixed expressions** have a value of their own. -/
theorem exists_eval_eq (m : Machine σ α) :
    ∀ e : Expr, e.isFixed → ∃ v, ∀ s, m.eval e s = (v, s)
  | .const index, _ => ⟨m.const index, fun _ => rfl⟩
  | .bool b, _ => ⟨m.bool b, fun _ => rfl⟩
  | .self, _ => ⟨m.self, fun _ => rfl⟩
  | .slot _, h | .member _, h | .global _, h => by
    simp [Expr.isFixed, Expr.walk, Expr.needsNoState] at h
  | .attr _ _, h | .index _ _, h | .method _ _ _, h => by
    simp [Expr.isFixed, Expr.walk, Expr.needsNoState] at h
  | .binary op left right, h => by
    rw [Expr.isFixed_binary, Bool.and_eq_true] at h
    obtain ⟨u, hu⟩ := exists_eval_eq m left h.1
    obtain ⟨v, hv⟩ := exists_eval_eq m right h.2
    exact ⟨m.binary op u v, fun s => by simp [eval, hu, hv]⟩
  | .unary op operand, h => by
    rw [Expr.isFixed_unary] at h
    obtain ⟨v, hv⟩ := exists_eval_eq m operand h
    exact ⟨m.unary op v, fun s => by simp [eval, hv]⟩
  | .cast value name, h => by
    rw [Expr.isFixed_cast] at h
    obtain ⟨v, hv⟩ := exists_eval_eq m value h
    exact ⟨m.cast v name, fun s => by simp [eval, hv]⟩
  | .group of items, h => by
    rw [Expr.isFixed_group, Bool.and_eq_true, List.all_eq_true] at h
    obtain ⟨vs, hvs⟩ := exists_evalAll_eq m items h.2
    cases of with
    | builtin _ | call _ | yield => cases h.1
    | array => exact ⟨m.array vs, fun s => by simp [eval, hvs, gather]⟩
    | dictionary => exact ⟨m.dictionary vs, fun s => by simp [eval, hvs, gather]⟩

theorem exists_evalAll_eq (m : Machine σ α) :
    ∀ es : List Expr, (∀ e ∈ es, e.isFixed) → ∃ vs, ∀ s, eval.evalAll m es s = (vs, s)
  | [], _ => ⟨[], fun _ => rfl⟩
  | e :: es, h => by
    obtain ⟨v, hv⟩ := exists_eval_eq m e (h e List.mem_cons_self)
    obtain ⟨vs, hvs⟩ := exists_evalAll_eq m es fun e' he' => h e' (List.mem_cons_of_mem _ he')
    exact ⟨v :: vs, fun s => by simp [eval.evalAll, hv, hvs]⟩

end

end Machine

/-! ## Operations and products -/

/-- The mnemonics of the operations that an action is for. -/
def Action.mnemonics : Action → List String
  | .nothing => ["NOP", "JUMP", "ITER_NEXT"]
  | .loadConst => ["LOAD_CONST"]
  | .loadSlot => ["LOAD_LOCAL"]
  | .loadSelf => ["LOAD_SELF"]
  | .loadMember => ["LOAD_MEMBER"]
  | .loadGlobal => ["LOAD_GLOBAL"]
  | .storeSlot => ["STORE_LOCAL"]
  | .storeMember => ["STORE_MEMBER"]
  | .getAttr => ["GET_ATTR"]
  | .setAttr => ["SET_ATTR"]
  | .getIndex => ["GET_INDEX"]
  | .setIndex => ["SET_INDEX"]
  | .binary op => [op.mnemonic]
  | .unary op => [op.mnemonic]
  | .cast => ["AS"]
  | .callBuiltin => ["CALL_BUILTIN"]
  | .callMethod => ["CALL_METHOD"]
  | .callSelf => ["CALL_SELF"]
  | .makeArray => ["MAKE_ARRAY"]
  | .makeDictionary => ["MAKE_DICT"]
  | .yield => ["YIELD"]
  | .drop => ["POP"]
  | .assert => ["ASSERT"]
  | .breakpoint => ["BREAKPOINT"]
  | .consume => ["JUMP_IF_TRUE", "JUMP_IF_FALSE", "ITER_BEGIN", "RETURN"]

/-- The actions of the operations of the standard data are for their mnemonics, and only operations
that can transfer control take a value for the ending. -/
theorem Registry.mnemonics_of_mem : ∀ op ∈ knownOperations,
    ∀ a ∈ Action.ofMnemonic? op.mnemonic, op.mnemonic ∈ a.mnemonics ∧
      (a = .consume → op.transfer.isBranch) := by
  decide +kernel

namespace Machine

variable {σ α : Type}

/-- What is done with a product. -/
def produce (m : Machine σ α) (p : Product) (s : σ) : Reaction σ α :=
  match p with
  | .nothing => .act s
  | .push e => .push (m.eval e s).1 (m.eval e s).2
  | .act stmt => .act (m.exec stmt s)
  | .value e => .take (m.eval e s).1 (m.eval e s).2

/-- **Operations and products.** What an operation does with the values of expressions is what its
action makes of the expressions. -/
theorem perform_product (m : Machine σ α) {a : Action} {i : Instruction} {args : List Expr}
    (hname : i.mnemonic ∈ a.mnemonics) (hfits : a.Fits i.operands args) (s : σ) :
    m.perform i (eval.evalAll m args s).1 (eval.evalAll m args s).2 =
      some (m.produce (a.product i args) s) := by
  generalize hoperands : i.operands = operands at hfits
  unfold perform
  rw [hoperands]
  cases hfits with
  | nothing =>
    simp only [Action.mnemonics, List.mem_cons, List.not_mem_nil, or_false] at hname
    rcases hname with hname | hname | hname <;> rw [hname] <;> rfl
  | consume =>
    simp only [Action.mnemonics, List.mem_cons, List.not_mem_nil, or_false] at hname
    rcases hname with hname | hname | hname | hname <;> rw [hname] <;> rfl
  | @unary op =>
    rw [List.mem_singleton.mp hname]
    cases op <;> rfl
  | @binary op =>
    rw [List.mem_singleton.mp hname]
    cases op <;> rfl
  | _ =>
    simp only [Action.product, hoperands]
    rw [List.mem_singleton.mp hname]
    rfl

end Machine

end Unscript
