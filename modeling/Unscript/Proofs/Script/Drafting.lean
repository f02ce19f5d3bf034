import Unscript.Proofs.Outcome
import Unscript.Proofs.Script.Commands
import Unscript.Script.Builder

/-!
# Steps of assembling a function

A function is put together by steps, some of which may fail. A step fails before it changes anything,
so the draft in the end is what the steps that succeed make of an empty one: it has their instructions
in their order, and every label stands at the end of the instructions before it.

* `FunctionDraft.Step`: a step; `FunctionDraft.perform` takes one, `FunctionDraft.run` a row of them.
* `FunctionDraft.taken`: the steps of a run that succeed.
* `FunctionDraft.StandsFor`: the number that an operand stands for after some steps.
* `FunctionDraft.Follows`: what a draft knows of the steps that made it.

Results:
* `FunctionDraft.label_cases`, `FunctionDraft.emit_cases`: all that placing a label and emitting an
  instruction can do.
* `FunctionDraft.runOn_perform_error`: a step that fails leaves the draft as it was.
* `FunctionDraft.run_skips`: a step that fails makes no difference.
* `FunctionDraft.Follows.perform`: a step that succeeds is known of, with all steps before it.
* `FunctionDraft.follows_run`: a draft knows of the steps that succeed.
-/

namespace Unscript

namespace DraftInstruction

/-- The command with this mnemonic and some numbers as operands. -/
def command (i : DraftInstruction) (values : List Nat) : Command :=
  ⟨i.mnemonic, values⟩

/-- The count of bytes. -/
def size (d : Dialect) (i : DraftInstruction) : Nat :=
  (i.command []).size d

/-- The operands with their kinds. -/
def typed (d : Dialect) (i : DraftInstruction) : List (OperandKind × DraftOperand) :=
  ((i.command []).kinds d).zip i.operands

end DraftInstruction

theorem Dialect.instructionSize_eq_sum (d : Dialect) (op : Operation) :
    d.instructionSize op = d.opcodeWidth + (op.operands.map d.operandWidth).sum := by
  have grows (kinds : List OperandKind) (size : Nat) :
      kinds.foldl (fun size kind => size + d.operandWidth kind) size =
        size + (kinds.map d.operandWidth).sum := by
    induction kinds generalizing size with
    | nil => rfl
    | cons kind kinds ih => rw [List.foldl_cons, ih, List.map_cons, List.sum_cons, Nat.add_assoc]
  exact grows op.operands d.opcodeWidth

namespace Drafting

variable {α β : Type}

theorem runOn_bind (m : Drafting α) (k : α → Drafting β) (f : FunctionDraft) :
    (m >>= k).runOn f =
      match m.runOn f with
      | (.ok a, f') => (k a).runOn f'
      | (.error e, f') => (.error e, f') := by
  unfold runOn
  rw [Outcome.run_bind]
  rcases h : m.run.run f with ⟨_ | _, _⟩ <;> rfl

theorem runOn_get (f : FunctionDraft) : runOn get f = (.ok f, f) :=
  Outcome.run_get f

/-- A check works on no function. -/
theorem runOn_lift (x : Except EncodeError α) (f : FunctionDraft) : runOn (liftM x) f = (x, f) :=
  rfl

end Drafting

namespace FunctionDraft

/-! ## Steps -/

/-- A step of assembling a function. -/
inductive Step where
  | label (name : String)
  | emit (i : DraftInstruction)
  | constant (c : Constant)
  | useLocal (slot : Int)

/-- The instruction that a step emits. -/
def Step.instruction? : Step → Option DraftInstruction
  | .emit i => some i
  | .label _ | .constant _ | .useLocal _ => none

/-- Takes a step. -/
def perform : Step → Drafting Unit
  | .label name => label name
  | .emit i => emit i.mnemonic i.operands i.line
  | .constant c => modify fun f => (f.constant c).2
  | .useLocal slot => modify (·.useLocal slot)

/-- The draft that a step leaves, whether it fails or not. -/
def attempt (f : FunctionDraft) (s : Step) : FunctionDraft :=
  ((perform s).runOn f).2

/-- Takes steps one after another. -/
def run (f : FunctionDraft) (steps : List Step) : FunctionDraft :=
  steps.foldl attempt f

/-- The steps of a run that succeed. -/
def taken (f : FunctionDraft) : List Step → List Step
  | [] => []
  | s :: steps =>
    match (perform s).runOn f with
    | (.ok (), f') => s :: taken f' steps
    | (.error _, f') => taken f' steps

/-- The instructions that steps emit. -/
def emitted (steps : List Step) : List DraftInstruction :=
  steps.filterMap Step.instruction?

/-- The count of bytes of the instructions that steps emit. -/
def extent (d : Dialect) (steps : List Step) : Nat :=
  ((emitted steps).map (·.size d)).sum

/-- The number that an operand stands for after some steps: a label stands for the offset at which
it was placed. -/
inductive StandsFor (d : Dialect) (steps : List Step) : DraftOperand → Nat → Prop where
  | number (n : Nat) : StandsFor d steps (.number n) n
  | label {before after : List Step} {name : String} (h : steps = before ++ .label name :: after) :
      StandsFor d steps (.label name) (extent d before)

variable {d : Dialect} {f f' f₀ : FunctionDraft} {steps : List Step} {s : Step} {name : String}

/-- **Placing a label** fails, with the draft as it was, or adds it at the end. -/
theorem label_cases (f : FunctionDraft) (name : String) :
    (label name).runOn f = (.error (.duplicateLabel name), f) ∨
    f.labels.lookup name = none ∧
      (label name).runOn f = (.ok (), { f with labels := f.labels ++ [(name, f.size)] }) := by
  unfold label
  rw [Drafting.runOn_bind, Drafting.runOn_get]
  dsimp only
  cases hlookup : f.labels.lookup name with
  | none => exact .inr ⟨rfl, rfl⟩
  | some offset => exact .inl rfl

/-- **Emitting an instruction** fails, with the draft as it was, or adds it with room for its
locals. -/
theorem emit_cases (f : FunctionDraft) (i : DraftInstruction) :
    (∃ e, (emit i.mnemonic i.operands i.line).runOn f = (.error e, f)) ∨
    ∃ code op, f.dialect.encoding? i.mnemonic = some (code, op) ∧
      i.operands.length = op.operands.length ∧
      (emit i.mnemonic i.operands i.line).runOn f = (.ok (), {
        f.useLocals (op.operands.zip i.operands) with
        items := (f.useLocals (op.operands.zip i.operands)).items ++ [i]
        size := (f.useLocals (op.operands.zip i.operands)).size +
          f.dialect.instructionSize op }) := by
  unfold emit
  rw [Drafting.runOn_bind, Drafting.runOn_get]
  dsimp only
  rw [Drafting.runOn_bind, Drafting.runOn_lift]
  cases hencoding : Encode.encodingOf f.dialect i.mnemonic with
  | error e => exact .inl ⟨e, rfl⟩
  | ok encoding =>
    dsimp only
    rw [Drafting.runOn_bind, Drafting.runOn_lift]
    cases hcount : Encode.checkCount encoding.2 i.operands.length with
    | error e => exact .inl ⟨e, rfl⟩
    | ok _ =>
      exact .inr ⟨encoding.1, encoding.2, Encode.encodingOf_eq_ok.mp hencoding,
        Encode.checkCount_eq_ok.mp hcount, rfl⟩

/-- **A step that fails** leaves the draft as it was. -/
theorem runOn_perform_error {e : EncodeError} (h : (perform s).runOn f = (.error e, f')) :
    f' = f := by
  cases s with
  | label name =>
    obtain hfails | ⟨-, hplaced⟩ := label_cases f name
    · exact congrArg Prod.snd (h.symm.trans hfails)
    · cases h.symm.trans hplaced
  | emit i =>
    obtain ⟨e', hfails⟩ | ⟨_, _, -, -, hemitted⟩ := emit_cases f i
    · exact congrArg Prod.snd (h.symm.trans hfails)
    · cases h.symm.trans hemitted
  | constant c => cases h
  | useLocal slot => cases h

theorem attempt_of_ok (h : (perform s).runOn f = (.ok (), f')) : f.attempt s = f' :=
  congrArg Prod.snd h

theorem attempt_of_error {e : EncodeError} (h : (perform s).runOn f = (.error e, f')) :
    f.attempt s = f :=
  (congrArg Prod.snd h).trans (runOn_perform_error h)

theorem run_append (f : FunctionDraft) (steps steps' : List Step) :
    f.run (steps ++ steps') = (f.run steps).run steps' :=
  List.foldl_append

/-- **A step that fails** makes no difference to a run. -/
theorem run_skips {before : List Step} {e : EncodeError}
    (h : (perform s).runOn (f.run before) = (.error e, f')) (after : List Step) :
    f.run (before ++ s :: after) = f.run (before ++ after) := by
  rw [run_append, run_append]
  show ((f.run before).attempt s).run after = (f.run before).run after
  rw [attempt_of_error h]

/-- **The steps that succeed** make the draft of the run. -/
theorem runOn_taken (f : FunctionDraft) (steps : List Step) :
    ((f.taken steps).forM perform).runOn f = (.ok (), f.run steps) := by
  induction steps generalizing f with
  | nil => rfl
  | cons s steps ih =>
    unfold taken run
    rw [List.foldl_cons]
    rcases h : (perform s).runOn f with ⟨_ | ⟨⟩, f'⟩
    · rw [attempt_of_error h, runOn_perform_error h]
      exact ih f
    · rw [attempt_of_ok h]
      show (perform s >>= fun _ => (f'.taken steps).forM perform).runOn f = _
      rw [Drafting.runOn_bind, h]
      exact ih f'

theorem emitted_append (steps steps' : List Step) :
    emitted (steps ++ steps') = emitted steps ++ emitted steps' :=
  List.filterMap_append

theorem extent_append (steps steps' : List Step) :
    extent d (steps ++ steps') = extent d steps + extent d steps' := by
  unfold extent
  rw [emitted_append, List.map_append, List.sum_append]

/-- A label stands where it stood before, or where the last step places it. -/
theorem standsFor_concat {offset : Nat} : StandsFor d (steps ++ [s]) (.label name) offset ↔
    StandsFor d steps (.label name) offset ∨ s = .label name ∧ offset = extent d steps := by
  constructor
  · rintro (_ | @⟨before, after, _, h⟩)
    rcases List.eq_nil_or_concat after with rfl | ⟨after, last, rfl⟩
    · obtain ⟨rfl, hlast⟩ := List.append_inj' h rfl
      exact .inr ⟨List.singleton_inj.mp hlast, rfl⟩
    · rw [List.concat_eq_append, ← List.cons_append, ← List.append_assoc] at h
      obtain ⟨rfl, -⟩ := List.append_inj' h rfl
      exact .inl (.label rfl)
  · rintro (h | ⟨rfl, rfl⟩)
    · cases h with
      | @label before after _ h =>
      rw [h, List.append_assoc, List.cons_append]
      exact .label rfl
    · exact .label rfl

/-! ## Locals -/

/-- The operands of an instruction change nothing but the count of locals. -/
theorem useLocals_eq (f : FunctionDraft) (operands : List (OperandKind × DraftOperand)) :
    f.useLocals operands = { f with locals := (f.useLocals operands).locals } := by
  unfold useLocals
  induction operands generalizing f with
  | nil => rfl
  | cons o operands ih =>
    rw [List.foldl_cons, ih]
    split <;> rfl

theorem locals_le_useLocals (f : FunctionDraft) (operands : List (OperandKind × DraftOperand)) :
    f.locals ≤ (f.useLocals operands).locals := by
  unfold useLocals
  induction operands generalizing f with
  | nil => exact Nat.le_refl _
  | cons o operands ih =>
    rw [List.foldl_cons]
    refine Nat.le_trans ?_ (ih _)
    split
    · exact Nat.le_max_left _ _
    · exact Nat.le_refl _

/-- There is room for every local among the operands. -/
theorem lt_useLocals {f : FunctionDraft} {operands : List (OperandKind × DraftOperand)} {n : Int}
    (h : (.slot, .number n) ∈ operands) : n < (f.useLocals operands).locals := by
  induction operands generalizing f with
  | nil => cases h
  | cons o operands ih =>
    rcases List.mem_cons.mp h with rfl | h
    · have hroom : n < (max f.locals (n + 1).toNat : Nat) := by omega
      have hgrows := locals_le_useLocals (f.useLocal n) operands
      exact Int.lt_of_lt_of_le hroom (Int.ofNat_le.mpr hgrows)
    · exact ih h

/-! ## What a draft knows of its steps -/

/-- What a draft knows of the steps that made it from another one. -/
structure Follows (f₀ : FunctionDraft) (steps : List Step) (f : FunctionDraft) : Prop where
  /-- The data that steps leave alone. -/
  frame : f = { f₀ with
    locals := f.locals, pool := f.pool, items := f.items, labels := f.labels, size := f.size }
  items : f.items = emitted steps
  size : f.size = extent f₀.dialect steps
  labels : ∀ {name offset}, f.labels.lookup name = some offset ↔
    StandsFor f₀.dialect steps (.label name) offset
  /-- All mnemonics are known, and have as many operands as they take. -/
  counts : ∀ i ∈ emitted steps, ∃ code op, f₀.dialect.encoding? i.mnemonic = some (code, op) ∧
    i.operands.length = op.operands.length
  slots : ∀ i ∈ emitted steps, ∀ n : Int, (.slot, .number n) ∈ i.typed f₀.dialect → n < f.locals
  locals : f₀.locals ≤ f.locals

namespace Follows

theorem dialect (h : Follows f₀ steps f) : f.dialect = f₀.dialect := by
  rw [h.frame]

theorem arguments (h : Follows f₀ steps f) : f.arguments = f₀.arguments := by
  rw [h.frame]

/-- A step that emits nothing and places no label is known of if it makes no less room. -/
theorem silent (h : Follows f₀ steps f) (hemit : s.instruction? = none)
    (hlabel : ∀ name, s ≠ .label name) {locals : Nat} (hlocals : f.locals ≤ locals)
    (pool : List Constant) : Follows f₀ (steps ++ [s]) { f with locals, pool } := by
  have hemitted : emitted (steps ++ [s]) = emitted steps := by
    rw [emitted_append, show emitted [s] = [] from List.filterMap_cons_none hemit, List.append_nil]
  have hextent : extent f₀.dialect (steps ++ [s]) = extent f₀.dialect steps := by
    unfold extent
    rw [hemitted]
  exact {
    frame := by rw [h.frame]
    items := h.items.trans hemitted.symm
    size := h.size.trans hextent.symm
    labels := by
      intro name offset
      rw [standsFor_concat, ← h.labels]
      exact (or_iff_left fun hplaced => hlabel name hplaced.1).symm
    counts := hemitted ▸ h.counts
    slots := by
      rw [hemitted]
      intro i hi n hn
      have := h.slots i hi n hn
      show n < (locals : Int)
      omega
    locals := Nat.le_trans h.locals hlocals }

/-- Labels are placed at the end of the instructions before them, and only once. -/
theorem label (h : Follows f₀ steps f)
    (hlabel : (FunctionDraft.label name).runOn f = (.ok (), f')) :
    Follows f₀ (steps ++ [.label name]) f' := by
  obtain hfails | ⟨hnone, hplaced⟩ := label_cases f name
  · cases hlabel.symm.trans hfails
  · cases hlabel.symm.trans hplaced
    have hemitted : emitted (steps ++ [.label name]) = emitted steps := by
      rw [emitted_append]
      exact List.append_nil _
    exact {
      frame := by rw [h.frame]
      items := h.items.trans hemitted.symm
      size := by rw [extent, hemitted]; exact h.size
      labels := by
        intro name' offset
        rw [List.lookup_append, standsFor_concat, ← h.labels, ← h.size]
        by_cases heq : name' = name
        · subst heq
          simp [hnone, eq_comm]
        · have hne : ¬ name = name' := fun he => heq he.symm
          simp [List.lookup_cons, beq_false_of_ne heq, hne]
      counts := hemitted ▸ h.counts
      slots := hemitted ▸ h.slots
      locals := h.locals }

/-- An instruction is known of with its count of operands, and there is room for its locals. -/
theorem emit (h : Follows f₀ steps f) {i : DraftInstruction}
    (hemit : (FunctionDraft.emit i.mnemonic i.operands i.line).runOn f = (.ok (), f')) :
    Follows f₀ (steps ++ [.emit i]) f' := by
  obtain ⟨e, hfails⟩ | ⟨code, op, hencoding, hcount, hemitted⟩ := emit_cases f i
  · cases hemit.symm.trans hfails
  cases hemit.symm.trans hemitted
  rw [h.dialect] at hencoding
  have hkinds : (i.command []).kinds f₀.dialect = op.operands := Command.kinds_eq hencoding
  have hsize : i.size f₀.dialect = f.dialect.instructionSize op := by
    rw [h.dialect, Dialect.instructionSize_eq_sum, DraftInstruction.size, Command.size,
      Command.sizes, hkinds, List.sum_cons]
  have htyped : i.typed f₀.dialect = op.operands.zip i.operands := by
    rw [DraftInstruction.typed, hkinds]
  have hemitted : emitted (steps ++ [.emit i]) = emitted steps ++ [i] := emitted_append _ _
  have hgrows := locals_le_useLocals f (op.operands.zip i.operands)
  rw [useLocals_eq]
  exact {
    frame := by rw [h.frame]
    items := by
      rw [hemitted, ← h.items]
    size := by
      rw [extent_append, ← h.size, ← hsize]
      rfl
    labels := by
      intro name offset
      rw [standsFor_concat, ← h.labels]
      exact (or_iff_left (by rintro ⟨⟨⟩, -⟩)).symm
    counts := by
      rw [hemitted, List.forall_mem_append, List.forall_mem_singleton]
      exact ⟨h.counts, code, op, hencoding, hcount⟩
    slots := by
      rw [hemitted, List.forall_mem_append, List.forall_mem_singleton, htyped]
      refine ⟨fun j hj n hn => ?_, fun n hn => lt_useLocals hn⟩
      exact Int.lt_of_lt_of_le (h.slots j hj n hn) (Int.ofNat_le.mpr hgrows)
    locals := Nat.le_trans h.locals hgrows }

/-- **A step** that succeeds is known of, with all steps before it. -/
theorem perform (h : Follows f₀ steps f)
    (hs : (FunctionDraft.perform s).runOn f = (.ok (), f')) :
    Follows f₀ (steps ++ [s]) f' := by
  cases s with
  | label name => exact h.label hs
  | emit i => exact h.emit hs
  | constant c =>
    cases hs
    show Follows f₀ (steps ++ [.constant c]) (f.constant c).2
    unfold FunctionDraft.constant
    split
    · exact h.silent rfl (by intro _ hs; cases hs) (Nat.le_refl _) f.pool
    · exact h.silent rfl (by intro _ hs; cases hs) (Nat.le_refl _) _
  | useLocal slot =>
    cases hs
    exact h.silent rfl (by intro _ hs; cases hs) (Nat.le_max_left _ _) f.pool

/-- What is known of the steps of a run that succeed, after steps that are known. -/
theorem run (h : Follows f₀ steps f) (more : List Step) :
    Follows f₀ (steps ++ f.taken more) (f.run more) := by
  induction more generalizing f steps with
  | nil =>
    rw [taken, List.append_nil]
    exact h
  | cons s more ih =>
    unfold taken FunctionDraft.run
    rw [List.foldl_cons]
    rcases hs : (FunctionDraft.perform s).runOn f with ⟨_ | ⟨⟩, f'⟩
    · rw [attempt_of_error hs, runOn_perform_error hs]
      exact ih h
    · rw [attempt_of_ok hs]
      have hrest := ih (h.perform hs)
      rw [List.append_assoc] at hrest
      exact hrest

end Follows

/-- **A draft knows of the steps** that succeed. -/
theorem follows_run (hitems : f₀.items = []) (hlabels : f₀.labels = []) (hsize : f₀.size = 0)
    (steps : List Step) : Follows f₀ (f₀.taken steps) (f₀.run steps) := by
  have hempty : Follows f₀ [] f₀ := {
    frame := rfl
    items := hitems
    size := hsize
    labels := by
      intro name offset
      rw [hlabels]
      refine iff_of_false nofun ?_
      rintro (_ | ⟨h⟩)
      exact List.append_ne_nil_of_right_ne_nil _ (List.cons_ne_nil _ _) h.symm
    counts := fun _ hi => nomatch hi
    slots := fun _ hi => nomatch hi
    locals := Nat.le_refl _ }
  exact hempty.run steps

end FunctionDraft

end Unscript
