import Unscript.Proofs.Flow.Transfers
import Unscript.Proofs.Lifting.Agreement
import Unscript.Proofs.Lifting.Ledger
import Mathlib.Data.List.Flatten

/-!
# Lifted blocks account for their instructions

Lifting neither loses nor repeats code: each instruction that makes a value is one node of one
expression, with what it took as the parts of the node; each that acts is one statement; and the one
that ends a block takes the value for the ending.

* `Ledger.Tracks`: a ledger of what a run on a stack of expressions has made.
* `Lifted.Accounts`: what a lifted block makes of its instructions.

Results:
* `Ledger.Tracks.step`, `Ledger.Tracks.run`: one instruction, and all instructions of a block.
* `Lifted.accounts_of_exact`: blocks of instructions of which only the last transfers control.
* `Lifted.ofInstructions_accounts`: the blocks of a function that was decoded to its end.
-/

namespace Unscript

/-! ## Runs -/

namespace Ledger

open List (Perm)

variable {d : Dialect} {block : Nat} {g : Ledger} {is : List Instruction} {s s' : Symbolic}
  {i : Instruction} {a : Action}

/-- The instructions with a role. -/
def only (role : Role) (is : List Instruction) : List Instruction :=
  is.filter (·.role == role)

theorem only_append (role : Role) (is js : List Instruction) :
    only role (is ++ js) = only role is ++ only role js :=
  List.filter_append ..

theorem only_singleton (role : Role) (i : Instruction) :
    only role [i] = if i.role = role then [i] else [] := by
  unfold only
  by_cases h : i.role = role <;> simp [h]

/-- **A ledger of a run.** The trees make what is on the stack of expressions and the statements,
the last one of the endings takes the value for the ending, and the trees hold the instructions of
the run once each. -/
structure Tracks (g : Ledger) (is : List Instruction) (s : Symbolic) : Prop where
  stack : List.Forall₂ Derivation.Makes g.stack s.stack
  statements : List.Forall₂ Derivation.Acts g.acts s.statements
  value : List.Forall₂ Derivation.Ends g.endings.getLast?.toList s.value.toList
  acts : g.acts.map Derivation.instruction = only .act is
  endings : g.endings.map Derivation.instruction = only .ending is
  once : g.parts.Perm (only .value is)

/-- A ledger after one more instruction. -/
theorem step_eq (d : Dialect) (g : Ledger) (i : Instruction) {n : Nat} (hn : d.pops i = n) :
    g.step d i =
      match i.role with
      | .silent => { g with stack := g.stack.drop n }
      | .value => { g with stack := .of i (g.stack.take n).reverse :: g.stack.drop n }
      | .act =>
        { g with stack := g.stack.drop n, acts := g.acts ++ [.of i (g.stack.take n).reverse] }
      | .ending =>
        { g with stack := g.stack.drop n
                 endings := g.endings ++ [.of i (g.stack.take n).reverse] } := by
  have htoNat : (d.pops i).toNat = n := hn ▸ Int.toNat_natCast n
  subst htoNat
  unfold step
  cases i.role <;> rfl

/-- The instructions of trees in a row. -/
theorem parts_eq (g : Ledger) :
    g.parts = (g.acts.flatMap Derivation.taken).flatMap Derivation.walk ++
      (g.stack.reverse.flatMap Derivation.walk ++
        (g.endings.flatMap Derivation.taken).flatMap Derivation.walk) := by
  unfold parts values
  rw [List.flatMap_append, List.flatMap_append, List.append_assoc]

/-- The instructions of trees, with some of them on top of the stack. -/
theorem parts_split (g : Ledger) (n : Nat) :
    g.parts = (g.acts.flatMap Derivation.taken).flatMap Derivation.walk ++
      ((g.stack.drop n).reverse.flatMap Derivation.walk ++
        ((g.stack.take n).reverse.flatMap Derivation.walk ++
          (g.endings.flatMap Derivation.taken).flatMap Derivation.walk)) := by
  have hstack : g.stack.reverse = (g.stack.drop n).reverse ++ (g.stack.take n).reverse := by
    rw [← List.reverse_append, List.take_append_drop]
  rw [parts_eq, hstack, List.flatMap_append, List.append_assoc]

variable (g i) (n : Nat)

/-- A value that is made adds its instruction. -/
theorem parts_push :
    Perm (parts { g with stack := .of i (g.stack.take n).reverse :: g.stack.drop n })
      (i :: g.parts) := by
  rw [g.parts_split n, parts_eq]
  dsimp only
  rw [List.reverse_cons, List.flatMap_append, List.flatMap_singleton, Derivation.walk,
    Derivation.walkAll_eq_flatMap, List.append_assoc, List.cons_append, ← List.append_assoc,
    ← List.append_assoc]
  exact List.perm_middle

/-- Values that a statement takes leave the stack. -/
theorem parts_act : Perm (parts { g with
    stack := g.stack.drop n
    acts := g.acts ++ [.of i (g.stack.take n).reverse] }) g.parts := by
  rw [g.parts_split n, parts_eq]
  dsimp only
  rw [List.flatMap_append, List.flatMap_singleton, List.flatMap_append, List.append_assoc]
  exact (List.perm_append_comm_assoc _ _ _).append_left _

/-- So do values that are taken for the ending. -/
theorem parts_end : Perm (parts { g with
    stack := g.stack.drop n
    endings := g.endings ++ [.of i (g.stack.take n).reverse] }) g.parts := by
  rw [g.parts_split n, parts_eq]
  dsimp only
  rw [List.flatMap_append (f := Derivation.taken), List.flatMap_singleton,
    List.flatMap_append (f := Derivation.walk)]
  exact (List.perm_append_comm.append_left _).append_left _

variable {g i}

namespace Tracks

theorem nil : Tracks {} [] {} where
  stack := .nil
  statements := .nil
  value := .nil
  acts := rfl
  endings := rfl
  once := .refl _

/-- **One instruction**: what it takes from the stack of trees makes what it takes from the stack of
expressions. -/
theorem step (h : g.Tracks is s) (hi : i.Exact d a) (hs : s.step d block i = .ok s') :
    (g.step d i).Tracks (is ++ [i]) s' := by
  obtain ⟨args, rest, hstack, hargs, rfl⟩ := Symbolic.exists_of_step hi.toBalanced hs
  have hpops : d.pops i = args.length := by rw [hi.pops, hargs]
  have hrecords := hi.records hargs
  have hall := h.stack
  rw [hstack] at hall
  have htaken : List.Forall₂ Derivation.Makes (g.stack.take args.length).reverse args := by
    have htake := List.rel_reverse (List.forall₂_take args.length hall)
    rwa [List.take_left' List.length_reverse, List.reverse_reverse] at htake
  have hrest : List.Forall₂ Derivation.Makes (g.stack.drop args.length) rest := by
    have hdrop := List.forall₂_drop args.length hall
    rwa [List.drop_left' List.length_reverse] at hdrop
  rw [step_eq d g i hpops]
  cases hproduct : a.product i args with
  | nothing =>
    rw [hproduct] at hrecords
    obtain ⟨hrole, rfl⟩ := hrecords
    rw [hrole]
    exact {
      stack := hrest
      statements := h.statements
      value := h.value
      acts := by simp [only_append, only_singleton, hrole, h.acts]
      endings := by simp [only_append, only_singleton, hrole, h.endings]
      once := by simpa [only_append, only_singleton, hrole] using h.once }
  | push e =>
    rw [hproduct] at hrecords
    obtain ⟨hrole, hcommand, hparts⟩ := hrecords
    rw [hrole]
    exact {
      stack := .cons (.node hcommand (hparts ▸ htaken)) hrest
      statements := h.statements
      value := h.value
      acts := by simp [only_append, only_singleton, hrole, h.acts]
      endings := by simp [only_append, only_singleton, hrole, h.endings]
      once := by
        rw [only_append, only_singleton, if_pos hrole]
        exact (g.parts_push i _).trans
          ((h.once.cons i).trans (List.perm_append_singleton i _).symm) }
  | act stmt =>
    rw [hproduct] at hrecords
    obtain ⟨hrole, hcommand, hparts, hoffset⟩ := hrecords
    rw [hrole]
    exact {
      stack := hrest
      statements := List.rel_append h.statements (.cons ⟨hcommand, hoffset, hparts ▸ htaken⟩ .nil)
      value := h.value
      acts := by simp [only_append, only_singleton, hrole, h.acts, Derivation.instruction]
      endings := by simp [only_append, only_singleton, hrole, h.endings]
      once := by
        rw [only_append, only_singleton, if_neg (by rw [hrole]; decide), List.append_nil]
        exact (g.parts_act i _).trans h.once }
  | value e =>
    rw [hproduct] at hrecords
    obtain ⟨hrole, rfl⟩ := hrecords
    rw [hrole]
    exact {
      stack := hrest
      statements := h.statements
      value := by
        rw [List.getLast?_concat]
        exact .cons htaken .nil
      acts := by simp [only_append, only_singleton, hrole, h.acts]
      endings := by simp [only_append, only_singleton, hrole, h.endings, Derivation.instruction]
      once := by
        rw [only_append, only_singleton, if_neg (by rw [hrole]; decide), List.append_nil]
        exact (g.parts_end i _).trans h.once }

/-- **A run**, by induction on its instructions. -/
theorem run {more : List Instruction} (h : g.Tracks is s) (hmore : ∀ i ∈ more, ∃ a, i.Exact d a)
    (hs : more.foldlM (Symbolic.step d block) s = .ok s') :
    (more.foldl (Ledger.step d) g).Tracks (is ++ more) s' := by
  induction more generalizing g is s with
  | nil =>
    cases hs
    rwa [List.append_nil]
  | cons i more ih =>
    obtain ⟨⟨a, ha⟩, hmore⟩ := List.forall_mem_cons.mp hmore
    rw [List.foldlM_cons] at hs
    obtain ⟨s₁, hs₁, hs⟩ := Outcome.bind_eq_ok.mp hs
    have hrest := ih (h.step ha hs₁) hmore hs
    rwa [List.append_assoc] at hrest

end Tracks

end Ledger

/-- An instruction that is run is legal. -/
theorem Symbolic.legal_of_run {d : Dialect} {block : Nat} {is : List Instruction}
    {s s' : Symbolic} (hs : is.foldlM (step d block) s = .ok s') :
    ∀ i ∈ is, d.missingFeature? i.mnemonic = none := by
  induction is generalizing s with
  | nil => exact fun i hi => nomatch hi
  | cons i is ih =>
    rw [List.foldlM_cons] at hs
    obtain ⟨s₁, hs₁, hs⟩ := Outcome.bind_eq_ok.mp hs
    refine List.forall_mem_cons.mpr ⟨?_, ih hs⟩
    unfold step at hs₁
    split at hs₁
    · cases hs₁
    · assumption

/-! ## Blocks -/

/-- All values that the statements of a lifted block take, and the value for its ending. -/
def Lifted.values (l : Lifted) : List Expr :=
  l.statements.flatMap Stmt.taken ++ l.value.toList

/-- All nodes of the expressions of a lifted block. -/
def Lifted.nodes (l : Lifted) : List Expr :=
  l.values.flatMap Expr.walk

/-- A statement for a value that is left on the stack. -/
def Derivation.Stays (offset : Nat) (t : Derivation) (stmt : Stmt) : Prop :=
  ∃ e, stmt = .expr e offset true ∧ t.Makes e

/-- **What a lifted block makes of its instructions**, by the ledger that the table of operations
gives. -/
structure Lifted.Accounts (d : Dialect) (is : List Instruction) (g : Ledger) (l : Lifted) :
    Prop where
  /-- No two instructions are the same one. -/
  distinct : (is.map (·.offset)).Nodup
  /-- No instruction takes more values than there are. -/
  covers : d.Covers 0 is
  /-- Each instruction that acts is one statement; what is left on the stack follows. -/
  statements : ∃ made left, l.statements = made ++ left ∧ left.length = l.residue ∧
    List.Forall₂ Derivation.Acts g.acts made ∧
    List.Forall₂ (Derivation.Stays ((is.getLast?.map (·.offset)).getD 0)) g.stack.reverse left
  /-- The statements stand in the order of the instructions. -/
  acts : g.acts.map Derivation.instruction = Ledger.only .act is
  /-- The instruction that ends the block takes the value for the ending, and only that. -/
  value : List.Forall₂ Derivation.Ends g.endings l.value.toList
  endings : g.endings.map Derivation.instruction = Ledger.only .ending is
  /-- The nodes of all expressions are spelled by the instructions of the trees, one by one. -/
  nodes : List.Forall₂ Derivation.Spelled g.parts l.nodes
  /-- These are the instructions that make a value, each once. -/
  once : g.parts.Perm (Ledger.only .value is)

namespace Lifted

open Instruction (Straight)

variable {d : Dialect} {block : Nat} {is : List Instruction} {l : Lifted}

/-- Of instructions of which only the last can transfer control, at most one takes a value for the
ending. -/
theorem length_only_ending_le (hall : ∀ i ∈ is, ∃ a, i.Exact d a) (hstraight : Straight is) :
    (Ledger.only .ending is).length ≤ 1 := by
  rcases List.eq_nil_or_concat is with rfl | ⟨init, last, rfl⟩
  · exact Nat.zero_le 1
  · rw [List.concat_eq_append] at hall hstraight ⊢
    have hinit : Ledger.only .ending init = [] := by
      refine List.filter_eq_nil_iff.mpr fun i hi hrole => ?_
      obtain ⟨a, ha⟩ := hall i (List.mem_append_left _ hi)
      have hbranch := hstraight i (by rwa [List.dropLast_concat])
      rw [ha.isBranch (eq_of_beq hrole)] at hbranch
      cases hbranch
    rw [Ledger.only_append, hinit, List.nil_append]
    exact List.length_filter_le _ _

/-- What is lifted was run. -/
theorem exists_of_ofInstructions (hl : ofInstructions d block is = .ok l) :
    ∃ s, is.foldlM (Symbolic.step d block) {} = .ok s ∧ l = ofSymbolic is s := by
  unfold ofInstructions at hl
  cases hrun : is.foldlM (Symbolic.step d block) {} with
  | error e =>
    rw [hrun] at hl
    cases hl
  | ok s =>
    rw [hrun] at hl
    exact ⟨s, rfl, (Except.ok.inj hl).symm⟩

/-- A block that is lifted takes no more values than there are. -/
theorem covers_of_ofInstructions (hall : ∀ i ∈ is, ∃ a, i.Exact d a)
    (hl : ofInstructions d block is = .ok l) : d.Covers 0 is := by
  obtain ⟨s, hrun, -⟩ := exists_of_ofInstructions hl
  rcases Symbolic.run_covers (fun i hi => (hall i hi).imp fun _ ha => ha.toBalanced)
    (Symbolic.legal_of_run hrun) {} block with ⟨hcovers, -⟩ | ⟨_, _, _, -, -, -, herror⟩
  · exact hcovers
  · rw [hrun] at herror
    cases herror

/-- **Blocks account for their instructions**, if only the last of these can transfer control. -/
theorem accounts_of_exact (hall : ∀ i ∈ is, ∃ a, i.Exact d a) (hstraight : Straight is)
    (hdistinct : (is.map (·.offset)).Nodup) (hl : ofInstructions d block is = .ok l) :
    l.Accounts d is (.ofInstructions d is) := by
  have hcovers := covers_of_ofInstructions hall hl
  obtain ⟨s, hrun, rfl⟩ := exists_of_ofInstructions hl
  have htracks : (Ledger.ofInstructions d is).Tracks is s := Ledger.Tracks.nil.run hall hrun
  generalize Ledger.ofInstructions d is = g at htracks
  have hstack := List.rel_reverse htracks.stack
  have hvalue : List.Forall₂ Derivation.Ends g.endings s.value.toList := by
    have hlength := length_only_ending_le hall hstraight
    rw [← htracks.endings, List.length_map] at hlength
    match g.endings, hlength, htracks.value with
    | [], _, hlast => exact hlast
    | [_], _, hlast => exact hlast
  have hleft : (residueOf s.stack is).flatMap Stmt.taken = s.stack.reverse := by
    unfold residueOf
    rw [List.flatMap_map]
    exact List.flatMap_singleton' _
  have hvalues : List.Forall₂ Derivation.Makes g.values (values (ofSymbolic is s)) := by
    show List.Forall₂ _ (g.acts.flatMap _ ++ _ ++ _) ((s.statements ++ _).flatMap _ ++ _)
    rw [List.flatMap_append, hleft]
    refine List.rel_append (List.rel_append ?_ hstack) ?_
    · exact List.rel_flatMap htracks.statements fun _ _ h => h.parts
    · show List.Forall₂ _ _ s.value.toList
      rw [← List.flatMap_singleton' s.value.toList]
      exact List.rel_flatMap hvalue fun _ _ h => h
  exact {
    distinct := hdistinct
    covers := hcovers
    statements := by
      refine ⟨s.statements, residueOf s.stack is, rfl, by simp [residueOf, ofSymbolic],
        htracks.statements, ?_⟩
      exact List.forall₂_map_right_iff.mpr (hstack.imp fun _ e h => ⟨e, rfl, h⟩)
    acts := htracks.acts
    value := hvalue
    endings := htracks.endings
    nodes := by
      have hnodes := Derivation.Makes.allNodes hvalues
      rwa [Derivation.walkAll_eq_flatMap] at hnodes
    once := htracks.once }

/-- The blocks of a graph hold the instructions that it was built from, in order. -/
theorem sublist_of_build {length : Option Nat} {flow : Flow} (h : Flow.build is length = .ok flow)
    (b : Nat) : (flow.block b).instructions.Sublist is := by
  obtain ⟨starts, hcut⟩ := Graph.cut_of_ofStream (Flow.graph_of_build h).1
  by_cases hb : b < flow.graph.exit
  · have hone : [b].Sublist (List.range flow.graph.exit) :=
      List.singleton_sublist.mpr (List.mem_range.mpr hb)
    have hsublist := hone.flatMap fun id => (flow.graph.block id).instructions
    rw [hcut.instructions_eq, List.flatMap_singleton, hcut.instructions] at hsublist
    exact hsublist
  · have hnone : (flow.graph.block b).instructions = [] :=
      List.eq_nil_iff_forall_not_mem.mpr fun i hi => hb (hcut.lt_exit hi)
    show (flow.graph.block b).instructions.Sublist is
    rw [hnone]
    exact List.nil_sublist is

/-- **Lifted blocks account for their instructions.** A function that was decoded to its end has a
graph, whether the length of its code is given or not. For every block of it that is lifted: the
instructions that make a value are the nodes of the expressions of the lifted block, one by one,
each with its operands, and with what it took from the stack, in the order in which that was put
there, as its parts; the instructions that act are the statements before those for the values left,
in order, and have taken what the statements take; the instruction that ends the block has taken the
value for the ending. -/
theorem ofInstructions_accounts {d : Dialect} (hd : d.Registered) {payload : List UInt8}
    {fn : Function} (hfn : fn ∈ (Script.decode d payload).functions) (hcomplete : fn.complete)
    (length : Option Nat) (hlength : ∀ n ∈ length, n = fn.codeLength) :
    ∃ flow, Flow.build fn.instructions length = .ok flow ∧
      ∀ b l, ofInstructions d b (flow.block b).instructions = .ok l →
        l.Accounts d (flow.block b).instructions
          (.ofInstructions d (flow.block b).instructions) := by
  obtain ⟨flow, hflow⟩ := Flow.exists_build_of_complete hd hfn hcomplete hlength
  refine ⟨flow, hflow, fun b l hl => ?_⟩
  have hdecoded := Script.decoded_of_mem hd hfn hcomplete
  have hsublist := sublist_of_build hflow b
  refine accounts_of_exact (fun i hi => ?_) (straight_of_build hflow b) ?_ hl
  · exact (hdecoded.conforms i (hsublist.subset hi)).exists_exact hd.regular
  · exact (hsublist.map _).nodup hdecoded.tiles.nodup_offset

/-- A payload of the oldest dialect that stores a dictionary, leaves a value and returns a sum. -/
def storedDictionary : List UInt8 :=
  [1, 0, 0, 0, 0, 0, 0, 0, 0, 0, 0, 2, 3, 0, 0, 1, 0, 2, 7, 0, 0, 0, 19, 0, 0, 0, 1, 0, 0, 2, 0, 38,
    1, 0, 3, 1, 4, 2, 1, 1, 0, 0, 12, 0, 44]

theorem ofInstructions_accounts_storedDictionary :
    ∃ fn ∈ (Script.decode Registry.oldest storedDictionary).functions, fn.complete ∧
      ∃ flow, Flow.build fn.instructions (some fn.codeLength) = .ok flow ∧
        ∃ l, ofInstructions Registry.oldest 0 (flow.block 0).instructions = .ok l ∧
          l = {
            statements := [.assign (.slot 1) (.group .dictionary [.const 0, .slot 0]) 8,
              .expr .self 18 true]
            value := some (.binary .add (.slot 1) (.const 0))
            residue := 1 } ∧
          l.Accounts Registry.oldest (flow.block 0).instructions
            (.ofInstructions Registry.oldest (flow.block 0).instructions) := by
  have hfound : ((Script.decode Registry.oldest storedDictionary).functions.any fun fn =>
      fn.complete &&
      (Flow.build fn.instructions (some fn.codeLength)).toOption.any fun flow =>
        (ofInstructions Registry.oldest 0 (flow.block 0).instructions).toOption.any fun l =>
          decide (l = {
            statements := [.assign (.slot 1) (.group .dictionary [.const 0, .slot 0]) 8,
              .expr .self 18 true]
            value := some (.binary .add (.slot 1) (.const 0))
            residue := 1 })) = true := by
    decide +kernel
  obtain ⟨fn, hfn, hfound⟩ := List.any_eq_true.mp hfound
  obtain ⟨hcomplete, hfound⟩ := Bool.and_eq_true_iff.mp hfound
  obtain ⟨flow, hflow, hfound⟩ := (Option.any_eq_true _ _).mp hfound
  obtain ⟨l, hl, hfound⟩ := (Option.any_eq_true _ _).mp hfound
  have hlifted := of_decide_eq_true hfound
  have hl := Outcome.toOption_eq_some.mp hl
  obtain ⟨flow', hflow', hall⟩ := ofInstructions_accounts
    (Dialect.registered_of_mem Registry.oldest_mem) hfn hcomplete (some fn.codeLength)
    fun n hn => (Option.some.inj hn).symm
  obtain rfl : flow' = flow := Except.ok.inj (hflow'.symm.trans (Outcome.toOption_eq_some.mp hflow))
  exact ⟨fn, hfn, hcomplete, flow', hflow', l, hl, hlifted, hall 0 l hl⟩

end Lifted

end Unscript
