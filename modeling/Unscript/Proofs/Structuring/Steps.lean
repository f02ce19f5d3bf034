import Unscript.Proofs.Structuring.Walked
import Mathlib.Algebra.Order.BigOperators.Group.Finset

/-!
# Steps of the walk

The walk takes a step at every block where it begins a construct. A block is visited in its
construct, and no construct is begun at a visited block; only a loop without a test at its header
begins a second construct there before the header is visited. So no block takes more than two steps,
however the graph looks and whether the walk finds a tree or fails, and the budget is never
exceeded.

* `Structuring.Moves`: a part of the walk that takes no step.
* `Structuring.Tally`: steps at blocks with instructions, at most two at each.
* `Structuring.Rests`: a walk in which every block with a step is visited.
* `Structuring.Awaits`: a walk in which one block with a step may not be visited yet.
* `Structuring.Paces`: what a part of the walk does that keeps the tally.

Results:
* `Structuring.Tally.steps_le`: the count of steps.
* `Structuring.paces_build`: the steps of the construct at a block.
* `Structuring.treads_body`: the steps of bodies.
* `Structuring.paces_function`: the steps of a function.
-/

namespace Unscript.Structuring

variable {α β : Type} {p : Plan} {w w' : Walk} {id start join least : Nat} {r : Region}

/-! ## Parts that take no step -/

/-- Later in a walk that takes no step. -/
structure Later (w w' : Walk) : Prop where
  begun : w'.begun = w.begun
  visited : ∀ id ∈ w.visited, id ∈ w'.visited

/-- Later in a walk that takes no step and visits no block. -/
structure Still (w w' : Walk) : Prop where
  begun : w'.begun = w.begun
  visited : w'.visited = w.visited

theorem Still.later (h : Still w w') : Later w w' :=
  ⟨h.begun, fun _ hid => h.visited ▸ hid⟩

theorem Later.refl (w : Walk) : Later w w :=
  ⟨rfl, fun _ h => h⟩

theorem Later.trans {w₁ w₂ w₃ : Walk} (h : Later w₁ w₂) (h' : Later w₂ w₃) : Later w₁ w₃ :=
  ⟨h'.begun.trans h.begun, fun id hid => h'.visited id (h.visited id hid)⟩

instance : IsPreorder Walk Later where
  refl := Later.refl
  trans _ _ _ := Later.trans

instance : IsPreorder Walk Still where
  refl _ := ⟨rfl, rfl⟩
  trans _ _ _ h h' := ⟨h'.begun.trans h.begun, h'.visited.trans h.visited⟩

/-- A part of the walk that moves it as a relation says, whether it fails or not, and does not fail
for want of budget. -/
def Moves (R : Walk → Walk → Prop) (m : Structuring α) : Prop :=
  ∀ w, R w (m.run.run w).2 ∧ ∀ id, (m.run.run w).1 ≠ .error (.budget id)

section Moves

variable {R : Walk → Walk → Prop} {m : Structuring α} {k : α → Structuring β}

theorem moves_get {k : Walk → Structuring α} (h : ∀ w, Moves R (k w)) : Moves R (get >>= k) :=
  fun w => h w w

theorem moves_modify {u : Walk → Walk} (h : ∀ w, R w (u w)) : Moves R (modify u) :=
  fun w => ⟨h w, nofun⟩

theorem Moves.later (h : Moves Still m) : Moves Later m :=
  fun w => ⟨(h w).1.later, (h w).2⟩

variable [IsPreorder Walk R]

theorem moves_pure (a : α) : Moves R (pure a : Structuring α) :=
  fun w => ⟨refl_of R w, nofun⟩

theorem moves_throw {e : StructureFault} (h : ∀ id, e ≠ .budget id) :
    Moves R (throw e : Structuring α) :=
  fun w => ⟨refl_of R w, fun id heq => h id (Except.error.inj heq)⟩

theorem Moves.bind (hm : Moves R m) (hk : ∀ a, Moves R (k a)) : Moves R (m >>= k) := by
  intro w
  obtain ⟨hfirst, hbudget⟩ := hm w
  rw [Outcome.run_bind]
  cases hrun : m.run.run w with
  | mk result w' =>
    rw [hrun] at hfirst hbudget
    cases result with
    | error e => exact ⟨hfirst, fun id heq => hbudget id (congrArg _ (Except.error.inj heq))⟩
    | ok a => exact ⟨trans_of R hfirst (hk a w').1, (hk a w').2⟩

end Moves

theorem moves_note (text : String) : Moves Still (note text) :=
  moves_modify fun _ => ⟨rfl, rfl⟩

theorem moves_aim (targets : List Nat) : Moves Still (aim targets) :=
  moves_modify fun _ => ⟨rfl, rfl⟩

theorem moves_visit (id : Nat) : Moves Later (visit id) :=
  moves_modify fun w => ⟨rfl, BlockSet.subset_insert w.visited id⟩

theorem moves_attempt (p : Plan) (id : Nat) : Moves Still (attempt p id) := by
  refine moves_get fun w => ?_
  split
  · exact moves_pure _
  · split
    · exact (moves_modify fun _ => ⟨rfl, rfl⟩).bind fun _ => moves_pure _
    · exact moves_pure _

theorem moves_lift? (p : Plan) (id : Nat) : Moves Still (lift? p id) := by
  refine (moves_attempt p id).bind fun result => ?_
  split
  · exact moves_pure _
  · exact (moves_note _).bind fun _ => moves_pure _
  · exact moves_throw nofun

theorem moves_needed (id : Nat) (value : Option Expr) : Moves Still (needed id value) := by
  cases value with
  | none => exact moves_throw nofun
  | some e => exact moves_pure e

/-- What follows the visit of a block that becomes a node without structure. -/
theorem moves_afterRaw (p : Plan) (id : Nat) (reason : RawReason) : ∃ k : Unit → Structuring Node,
    raw p id reason = visit id >>= k ∧ Moves Still (k ()) := by
  refine ⟨_, rfl, (moves_attempt p id).bind fun result => ?_⟩
  split
  · exact (moves_pure _).bind fun _ => (moves_aim _).bind fun _ => moves_pure _
  · split
    · exact (moves_note _).bind fun _ => (moves_pure _).bind fun _ => (moves_aim _).bind fun _ =>
        moves_pure _
    · exact Moves.bind (moves_throw nofun) fun _ => (moves_aim _).bind fun _ => moves_pure _

theorem moves_raw (p : Plan) (id : Nat) (reason : RawReason) : Moves Later (raw p id reason) := by
  obtain ⟨k, hraw, hk⟩ := moves_afterRaw p id reason
  rw [hraw]
  exact (moves_visit id).bind fun _ => hk.later

theorem moves_goto (target : Nat) (reason : RawReason) : Moves Still (goto target reason) :=
  (moves_aim _).bind fun _ => moves_pure _

theorem moves_pattern? (p : Plan) (s : Chain.Scope) (current id : Nat) :
    Moves Still (Chain.pattern? p s current id) := by
  refine moves_get fun w => ?_
  split
  · exact moves_pure _
  refine (moves_lift? p id).bind fun lifted => ?_
  split
  · exact moves_pure _
  split
  · exact moves_pure _
  split
  · split <;> exact moves_pure _
  · exact moves_pure _

theorem moves_leftovers (p : Plan) : Moves Later (leftovers p) := by
  refine moves_get fun w => ?_
  dsimp only
  generalize p.flow.realBlocks.filter (fun id => !w.visited.contains id) = ids
  induction ids with
  | nil => exact moves_pure []
  | cons id ids ih =>
    rw [List.mapM_cons]
    exact (moves_raw p id _).bind fun _ => ih.bind fun _ => moves_pure _

theorem moves_checkCoverage (p : Plan) (nodes : List Node) : Moves Still (checkCoverage p nodes) := by
  unfold checkCoverage
  dsimp only
  split
  · exact moves_throw nofun
  · split
    · exact moves_throw nofun
    · exact moves_pure ()

/-! ## The tally -/

/-- Steps were taken at blocks with instructions only, and at most two at each. -/
structure Tally (p : Plan) (w : Walk) : Prop where
  real : ∀ id ∈ w.begun, id < p.flow.exit
  twice : ∀ id, w.begun.count id ≤ 2

/-- Every block with a step is visited, and some steps are taken. -/
structure Rests (p : Plan) (least : Nat) (w : Walk) : Prop extends Tally p w where
  visited : ∀ id ∈ w.begun, id ∈ w.visited
  least : least ≤ w.steps

/-- Every block with a step is visited, but for a block with few steps, and some steps are taken. -/
structure Awaits (p : Plan) (least id few : Nat) (w : Walk) : Prop extends Tally p w where
  visited : ∀ x ∈ w.begun, x = id ∨ x ∈ w.visited
  few : w.begun.count id ≤ few
  least : least ≤ w.steps

theorem Tally.later (h : Tally p w) (hl : Later w w') : Tally p w' := by
  constructor
  · rw [hl.begun]
    exact h.real
  · rw [hl.begun]
    exact h.twice

theorem Later.steps (h : Later w w') : w'.steps = w.steps :=
  congrArg List.length h.begun

theorem Rests.later (h : Rests p least w) (hl : Later w w') : Rests p least w' := by
  refine ⟨h.toTally.later hl, fun x hx => ?_, hl.steps ▸ h.least⟩
  rw [hl.begun] at hx
  exact hl.visited x (h.visited x hx)

/-- No step was taken at a block that is not visited. -/
theorem Rests.awaits (h : Rests p least w) (hid : id ∉ w.visited) : Awaits p least id 0 w :=
  ⟨h.toTally, fun x hx => .inr (h.visited x hx),
    Nat.le_of_eq (List.count_eq_zero_of_not_mem fun hx => hid (h.visited id hx)), h.least⟩

variable {few : Nat}

theorem Awaits.later (h : Awaits p least id few w) (hl : Later w w') : Awaits p least id few w' := by
  refine ⟨h.toTally.later hl, fun x hx => ?_, hl.begun ▸ h.few, hl.steps ▸ h.least⟩
  rw [hl.begun] at hx
  exact (h.visited x hx).imp_right (hl.visited x)

/-- A block that is visited is not awaited any longer. -/
theorem Awaits.rests (h : Awaits p least id few w) (hid : id ∈ w.visited) : Rests p least w :=
  ⟨h.toTally, fun x hx => (h.visited x hx).elim (fun heq => heq ▸ hid) fun hx => hx, h.least⟩

/-- **The count of steps** is twice the count of blocks at most. -/
theorem Tally.steps_le (h : Tally p w) : w.steps ≤ 2 * p.flow.exit := by
  have hcard : w.begun.toFinset.card ≤ p.flow.exit := by
    have hsub : w.begun.toFinset ⊆ Finset.range p.flow.exit := fun id hid =>
      Finset.mem_range.mpr (h.real id (List.mem_toFinset.mp hid))
    simpa using Finset.card_le_card hsub
  have hsum := Finset.sum_le_card_nsmul w.begun.toFinset w.begun.count 2 fun id _ => h.twice id
  rw [List.sum_toFinset_count_eq_length, Nat.nsmul_eq_mul] at hsum
  have : w.steps ≤ w.begun.toFinset.card * 2 := hsum
  omega

/-! ## Parts that keep the tally -/

/-- What a part of the walk does from a state on. If it fails, then not for want of budget, and the
tally is kept. -/
def Paces (p : Plan) (m : Structuring α) (w : Walk) (Q : α → Walk → Prop) : Prop :=
  match m.run.run w with
  | (.ok a, w') => Q a w'
  | (.error e, w') => (∀ id, e ≠ .budget id) ∧ Tally p w'

section Rules

variable {m : Structuring α} {Q : α → Walk → Prop}

/-- There is no want of budget. -/
theorem Paces.ne_budget (h : Paces p m w Q) (id : Nat) : (m.run.run w).1 ≠ .error (.budget id) := by
  unfold Paces at h
  cases hrun : m.run.run w with
  | mk result w' =>
    rw [hrun] at h
    cases result with
    | error e => exact fun heq => h.1 id (Except.error.inj heq)
    | ok a => exact nofun

theorem paces_pure {a : α} (h : Q a w) : Paces p (pure a) w Q :=
  h

theorem paces_throw {e : StructureFault} (he : ∀ id, e ≠ .budget id) (h : Tally p w) :
    Paces p (throw e : Structuring α) w Q :=
  ⟨he, h⟩

theorem Paces.bind {k : α → Structuring β} {R : β → Walk → Prop}
    (h : Paces p m w fun a w' => Paces p (k a) w' R) : Paces p (m >>= k) w R := by
  unfold Paces at h ⊢
  rw [Outcome.run_bind]
  cases hrun : m.run.run w with
  | mk result w' =>
    rw [hrun] at h
    cases result with
    | error e => exact h
    | ok a => exact h

theorem Paces.mono {R : α → Walk → Prop} (hm : Paces p m w Q) (h : ∀ a w', Q a w' → R a w') :
    Paces p m w R := by
  unfold Paces at hm ⊢
  cases hrun : m.run.run w with
  | mk result w' =>
    rw [hrun] at hm
    cases result with
    | error e => exact hm
    | ok a => exact h a w' hm

theorem paces_map {g : α → β} {R : β → Walk → Prop} (hm : Paces p m w fun a w' => R (g a) w') :
    Paces p (g <$> m) w R := by
  rw [← bind_pure_comp]
  exact (hm.mono fun _ _ h => paces_pure h).bind

theorem paces_get {k : Walk → Structuring α} (h : Paces p (k w) w Q) : Paces p (get >>= k) w Q :=
  h

theorem paces_modify {u : Walk → Walk} {Q : Unit → Walk → Prop} (h : Q () (u w)) :
    Paces p (modify u) w Q :=
  h

/-- A part that takes no step keeps the tally. -/
theorem Moves.paces (hm : Moves Later m) (ht : Tally p w) (h : ∀ a w', Later w w' → Q a w') :
    Paces p m w Q := by
  obtain ⟨hlater, hbudget⟩ := hm w
  unfold Paces
  cases hrun : m.run.run w with
  | mk result w' =>
    rw [hrun] at hlater hbudget
    cases result with
    | error e => exact ⟨fun id heq => hbudget id (congrArg _ heq), ht.later hlater⟩
    | ok a => exact h a w' hlater

theorem paces_visit {Q : Unit → Walk → Prop}
    (h : ∀ w', Later w w' → id ∈ w'.visited → Q () w') : Paces p (visit id) w Q :=
  h _ ⟨rfl, BlockSet.subset_insert w.visited id⟩ (BlockSet.mem_insert_self w.visited id)

theorem paces_visitAll {tests : List Nat} {Q : Unit → Walk → Prop}
    (h : ∀ w', Later w w' → Q () w') :
    Paces p (forIn tests () fun test _ => do
      visit test
      return ForInStep.yield ()) w Q := by
  induction tests generalizing w with
  | nil => exact paces_pure (h w (.refl w))
  | cons t tests ih =>
    rw [List.forIn_cons]
    refine .bind (.bind (paces_visit fun w₁ h₁ _ => paces_pure (ih fun w₂ h₂ => ?_)))
    exact h w₂ (h₁.trans h₂)

theorem paces_raw {reason : RawReason} {Q : Node → Walk → Prop} (ht : Tally p w)
    (h : ∀ n w', Later w w' → id ∈ w'.visited → Q n w') : Paces p (raw p id reason) w Q := by
  obtain ⟨k, hraw, hk⟩ := moves_afterRaw p id reason
  rw [hraw]
  refine .bind (paces_visit fun w₁ h₁ hid => ?_)
  exact hk.later.paces (ht.later h₁) fun n w₂ h₂ => h n w₂ (h₁.trans h₂) (h₂.visited id hid)

end Rules

/-- A step at a block that is not visited and has few steps. -/
theorem paces_step (hbudget : 2 * p.flow.exit ≤ p.budget) (hreal : id < p.flow.exit) {n : Nat}
    (h : Awaits p n id few w) (hfew : few ≤ 1) (hn : least ≤ n + 1) {Q : Unit → Walk → Prop}
    (hq : ∀ w', Awaits p least id (few + 1) w' → Q () w') : Paces p (step p id) w Q := by
  have hcount (x : Nat) : (id :: w.begun).count x =
      w.begun.count x + if id = x then 1 else 0 := by
    rw [List.count_cons]
    simp only [beq_iff_eq]
  have hlater : Awaits p least id (few + 1) { w with begun := id :: w.begun } := by
    refine ⟨⟨List.forall_mem_cons.mpr ⟨hreal, h.real⟩, fun x => ?_⟩, ?_, ?_, ?_⟩
    · have := h.twice x
      have := h.few
      dsimp only
      rw [hcount]
      split
      · rename_i heq
        subst heq
        omega
      · omega
    · exact List.forall_mem_cons.mpr ⟨.inl rfl, h.visited⟩
    · have := h.few
      dsimp only
      rw [hcount, if_pos rfl]
      omega
    · have := h.least
      unfold Walk.steps at this ⊢
      rw [List.length_cons]
      omega
  have hsteps := hlater.steps_le
  refine .bind (paces_modify (paces_get ?_))
  rw [if_neg (by omega)]
  exact paces_pure (hq _ hlater)

/-! ## Bodies as parameters -/

/-- A function that builds bodies and keeps the tally. A body that is entered by force begins at a
block that has a step already. -/
structure Treads (p : Plan) (build : BuildBody) (least : Nat) : Prop where
  plain : ∀ start r w, start ∈ p.flow.reachable → Rests p least w →
    Paces p (build false start r) w fun _ w' => Rests p least w'
  entering : ∀ start r w, start ∈ p.flow.reachable → start < p.flow.exit →
    r.header = some start → Awaits p least start 1 w →
    Paces p (build true start r) w fun _ w' => Rests p least w'

variable {build : BuildBody}

/-- A construct after which the walk rests, and goes on at a reachable block if it goes on. -/
def Onto (p : Plan) (least : Nat) (c : Construct) (w : Walk) : Prop :=
  Rests p least w ∧ ∀ next, c.2 = some next → next ∈ p.flow.reachable

theorem Rests.onto {nodes : List Node} {next : Option Nat} (h : Rests p least w)
    (hnext : ∀ id, next = some id → id ∈ p.flow.reachable) : Onto p least (nodes, next) w :=
  ⟨h, hnext⟩

theorem Rests.ends {nodes : List Node} (h : Rests p least w) : Onto p least (nodes, none) w :=
  ⟨h, nofun⟩

theorem Rests.goesOn {nodes : List Node} {next : Nat} (h : Rests p least w)
    (hnext : next ∈ p.flow.reachable) : Onto p least (nodes, some next) w :=
  ⟨h, by rintro _ ⟨⟩; exact hnext⟩

/-! ## Arms -/

section Arms

variable (hb : Treads p build least) (hw : Rests p least w)

include hb hw

theorem paces_arm (hstart : start ∈ p.flow.reachable) :
    Paces p (Construct.arm build r start join) w fun _ w' => Rests p least w' := by
  unfold Construct.arm
  split
  · exact paces_pure hw
  · exact hb.plain start _ w hstart hw

/-- An arm with what follows it. -/
theorem paces_arm_bind (hstart : start ∈ p.flow.reachable) {k : List Node → Structuring α}
    {Q : α → Walk → Prop} (h : ∀ nodes w', Rests p least w' → Paces p (k nodes) w' Q) :
    Paces p (if start = join then pure [] >>= k else build false start r >>= k) w Q := by
  split
  · exact .bind (paces_pure (h [] w hw))
  · exact .bind ((hb.plain start _ w hstart hw).mono h)

theorem paces_ifElse {c : Expr} {x y : Nat} (hx : x ∈ p.flow.reachable)
    (hy : y ∈ p.flow.reachable) :
    Paces p (Construct.ifElse build id c (x, y) join r) w fun _ w' => Rests p least w' := by
  refine .bind ((paces_arm hb hw hx).mono fun _ w₁ h₁ => ?_)
  refine .bind ((paces_arm hb h₁ hy).mono fun _ w₂ h₂ => ?_)
  exact paces_pure h₂

theorem paces_arms {cases : List (Expr × Nat)} (hcases : ∀ c ∈ cases, c.2 ∈ p.flow.reachable) :
    Paces p (cases.mapM fun (pattern, start) => do
      return (pattern, ← Construct.arm build r start join)) w fun _ w' => Rests p least w' := by
  induction cases generalizing w with
  | nil => exact paces_pure hw
  | cons c cases ih =>
    obtain ⟨hc, hcases⟩ := List.forall_mem_cons.mp hcases
    rw [List.mapM_cons]
    refine .bind (.bind ((paces_arm hb hw hc).mono fun _ w₁ h₁ => paces_pure ?_))
    exact .bind ((ih h₁ hcases).mono fun _ w₂ h₂ => paces_pure h₂)

theorem paces_matching {subject : Expr} {c : Chain} (hcases : ∀ x ∈ c.cases, x.2 ∈ p.flow.reachable)
    (hlast : c.fallback ∈ p.flow.reachable) :
    Paces p (Construct.matching p build id subject c join r) w fun _ w' => Rests p least w' := by
  refine .bind (paces_visitAll fun w₁ h₁ => ?_)
  refine .bind ((paces_arms hb (hw.later h₁) hcases).mono fun _ w₂ h₂ => ?_)
  split
  · exact .bind (paces_pure (paces_pure h₂))
  · refine .bind (paces_map ((hb.plain _ _ w₂ hlast h₂).mono fun _ w₃ h₃ => ?_))
    exact paces_pure h₃

end Arms

/-! ## Chains -/

/-- The arms of a chain are reachable. -/
theorem paces_extend (hf : p.flow.Analysed) {s : Chain.Scope} {current fuel : Nat} {c : Chain}
    (ht : Tally p w) (hc : c.fallback ∈ p.flow.reachable)
    (hcases : ∀ x ∈ c.cases, x.2 ∈ p.flow.reachable) :
    Paces p (Chain.extend p s fuel current c) w fun c' w' => Later w w' ∧
      c'.fallback ∈ p.flow.reachable ∧ ∀ x ∈ c'.cases, x.2 ∈ p.flow.reachable := by
  induction fuel generalizing w current c with
  | zero => exact paces_pure ⟨.refl w, hc, hcases⟩
  | succ fuel ih =>
    refine .bind ((moves_pattern? p s current c.fallback).later.paces ht fun found w₁ h₁ => ?_)
    split
    · rename_i pattern a b harms
      obtain ⟨ha, hb⟩ := Ending.mem_of_arms? harms
      have hcases' : ∀ x ∈ c.cases ++ [(pattern, a)], x.2 ∈ p.flow.reachable :=
        List.forall_mem_append.mpr
          ⟨hcases, List.forall_mem_singleton.mpr (hf.next_mem hc ha)⟩
      refine (ih (ht.later h₁) (hf.next_mem hc hb) hcases').mono fun c' w₂ h₂ => ?_
      exact ⟨h₁.trans h₂.1, h₂.2⟩
    · exact paces_pure ⟨h₁, hc, hcases⟩

theorem paces_chain (hf : p.flow.Analysed) (ht : Tally p w) {l : Lifted}
    (hid : id ∈ p.flow.reachable) :
    Paces p (Chain.of? p id l r) w fun found w' => Later w w' ∧ ∀ subject c,
      found = some (subject, c) → c.fallback ∈ p.flow.reachable ∧
        ∀ x ∈ c.cases, x.2 ∈ p.flow.reachable := by
  have hnone : Paces p (pure none : Structuring (Option (Expr × Chain))) w
      fun found w' => Later w w' ∧ ∀ subject c, found = some (subject, c) →
        c.fallback ∈ p.flow.reachable ∧ ∀ x ∈ c.cases, x.2 ∈ p.flow.reachable :=
    paces_pure ⟨.refl w, nofun⟩
  unfold Chain.of?
  split
  · rename_i join subject pattern x y hjoin hcomparison harms
    obtain ⟨hx, hy⟩ := Ending.mem_of_arms? harms
    split
    · exact hnone
    · have hcases : ∀ z ∈ [(pattern, x)], z.2 ∈ p.flow.reachable :=
        List.forall_mem_singleton.mpr (hf.next_mem hid hx)
      refine .bind ((paces_extend hf ht (hf.next_mem hid hy) hcases).mono fun c w₁ h₁ => ?_)
      split
      · exact paces_pure ⟨h₁.1, nofun⟩
      · exact paces_pure ⟨h₁.1, by rintro _ _ ⟨⟩; exact h₁.2⟩
  · exact hnone

/-! ## Conditionals -/

section Constructs

variable (hf : p.flow.Analysed) (hb : Treads p build least)

include hf hb

theorem paces_divergent (hw : Rests p least w) {head : Node} {c : Expr} {x y : Nat}
    (hx : x ∈ p.flow.reachable) (hy : y ∈ p.flow.reachable) :
    Paces p (Construct.divergent p build id head c (x, y) r) w (Onto p least) := by
  refine paces_get ?_
  dsimp only
  split
  · exact .bind ((hb.plain y _ w hy hw).mono fun _ w₁ h₁ => paces_pure (h₁.goesOn hx))
  split
  · exact .bind ((hb.plain x _ w hx hw).mono fun _ w₁ h₁ => paces_pure (h₁.goesOn hy))
  split
  · exact .bind ((paces_ifElse hb hw hx hy).mono fun _ w₁ h₁ => paces_pure (h₁.goesOn hf.exit_mem))
  · refine .bind ((moves_note _).later.paces hw.toTally fun _ w₁ h₁ => ?_)
    refine .bind ((moves_raw p id .noJoin).paces (hw.toTally.later h₁) fun _ w₂ h₂ => ?_)
    exact paces_pure ((hw.later h₁).later h₂).ends

theorem paces_conditional (hw : Rests p least w) (hid : id ∈ p.flow.reachable) {l : Lifted}
    {x y : Nat} (hx : x ∈ p.flow.reachable) (hy : y ∈ p.flow.reachable) :
    Paces p (Construct.conditional p build id l (x, y) r) w (Onto p least) := by
  refine .bind ((moves_needed id l.value).later.paces hw.toTally fun c w₁ h₁ => ?_)
  have hw₁ := hw.later h₁
  dsimp only
  split
  · exact paces_pure hw₁.ends
  · exact paces_pure (hw₁.goesOn hx)
  · exact paces_pure (hw₁.goesOn hy)
  refine .bind ((paces_chain hf hw₁.toTally hid).mono fun found w₂ h₂ => ?_)
  have hw₂ := hw₁.later h₂.1
  split
  · rename_i join subject c hjoin
    obtain ⟨hlast, hcases⟩ := h₂.2 subject c rfl
    refine .bind ((paces_matching hb hw₂ hcases hlast).mono fun _ w₃ h₃ => paces_pure ?_)
    exact h₃.goesOn (hf.join?_mem hjoin)
  · rename_i join hjoin
    split
    · refine .bind ((paces_ifElse hb hw₂ hx hy).mono fun _ w₃ h₃ => paces_pure ?_)
      exact h₃.goesOn (hf.join?_mem hjoin)
    · exact paces_divergent hf hb hw₂ hx hy
  · exact paces_divergent hf hb hw₂ hx hy

/-! ## Loops -/

omit hb in
/-- The test of a loop leads to reachable blocks. -/
theorem paces_loopTest? (ht : Tally p w) {l : Loop} (hid : l.header ∈ p.flow.reachable)
    (lifted : Option Lifted) :
    Paces p (Construct.loopTest? p l lifted) w fun found w' => Later w w' ∧ ∀ c start exit,
      found = some (c, start, exit) → start ∈ p.flow.reachable ∧ exit ∈ p.flow.reachable := by
  unfold Construct.loopTest?
  split
  · rename_i x y lifted hending
    have harms : (p.flow.ending l.header).arms? = some (x, y) := by
      rw [hending]
      rfl
    have hx := hf.next_mem hid (Ending.mem_of_arms? harms).1
    have hy := hf.next_mem hid (Ending.mem_of_arms? harms).2
    split
    · exact paces_pure ⟨.refl w, nofun⟩
    split
    · refine .bind ((moves_needed _ _).later.paces ht fun c w₁ h₁ => paces_pure ⟨h₁, ?_⟩)
      rintro _ _ _ ⟨⟩
      exact ⟨hx, hy⟩
    · refine .bind ((moves_needed _ _).later.paces ht fun c w₁ h₁ => paces_pure ⟨h₁, ?_⟩)
      rintro _ _ _ ⟨⟩
      exact ⟨hy, hx⟩
    · exact paces_pure ⟨.refl w, nofun⟩
  · exact paces_pure ⟨.refl w, nofun⟩

/-- A loop without a test at its header enters its header once more. -/
theorem paces_endless {l : Loop} (hl : p.flow.loopAt? id = some l) (hid : id ∈ p.flow.reachable)
    (hreal : id < p.flow.exit) (hw : Awaits p least id 1 w) :
    Paces p (Construct.endless p build l) w (Onto p least) := by
  have hheader : l.header = id := Flow.Analysed.loopAt?_header hl
  subst hheader
  refine .bind ((hb.entering l.header _ w hid hreal rfl hw).mono fun _ w₁ h₁ => paces_pure ?_)
  exact h₁.onto fun next hnext => hf.loopExit?_mem hl hnext

theorem paces_loop {l : Loop} (hl : p.flow.loopAt? id = some l) (hid : id ∈ p.flow.reachable)
    (hreal : id < p.flow.exit) (hw : Awaits p least id 1 w) :
    Paces p (Construct.loop p build l) w (Onto p least) := by
  have hheader : l.header = id := Flow.Analysed.loopAt?_header hl
  unfold Construct.loop
  dsimp only
  rw [hheader]
  split
  · refine .bind ((moves_note _).later.paces hw.toTally fun _ w₁ h₁ => ?_)
    refine .bind (paces_raw (hw.toTally.later h₁) fun _ w₂ h₂ hmem => paces_pure ?_)
    exact (((hw.later h₁).later h₂).rests hmem).ends
  refine .bind ((moves_lift? p id).later.paces hw.toTally fun lifted w₁ h₁ => ?_)
  have hw₁ := hw.later h₁
  split
  · refine .bind ((moves_note _).later.paces hw₁.toTally fun _ w₂ h₂ => ?_)
    exact paces_endless hf hb hl hid hreal (hw₁.later h₂)
  refine .bind ((paces_loopTest? hf hw₁.toTally (hheader ▸ hid) lifted).mono fun found w₂ h₂ => ?_)
  have hw₂ := hw₁.later h₂.1
  split
  · exact paces_endless hf hb hl hid hreal hw₂
  · rename_i c start exit
    obtain ⟨hstart, hexit⟩ := h₂.2 c start exit rfl
    refine .bind (paces_visit fun w₃ h₃ hmem => ?_)
    refine paces_arm_bind hb ((hw₂.later h₃).rests hmem) hstart fun _ w₄ h₄ => paces_pure ?_
    exact h₄.goesOn hexit

/-! ## Iterations -/

omit hf in
theorem paces_iteration {body exit : Nat} (hbody : body ∈ p.flow.reachable)
    (hexit : exit ∈ p.flow.reachable) (hw : Awaits p least id few w) :
    Paces p (Construct.iteration p build id body exit) w (Onto p least) := by
  unfold Construct.iteration
  split
  · refine .bind ((moves_note _).later.paces hw.toTally fun _ w₁ h₁ => ?_)
    refine .bind (paces_raw (hw.toTally.later h₁) fun _ w₂ h₂ hmem => paces_pure ?_)
    exact (((hw.later h₁).later h₂).rests hmem).ends
  rename_i l latch hadvance
  refine .bind ((moves_lift? p id).later.paces hw.toTally fun begun w₁ h₁ => ?_)
  have hw₁ := hw.later h₁
  refine .bind ((moves_lift? p latch).later.paces hw₁.toTally fun advanced w₂ h₂ => ?_)
  have hw₂ := hw₁.later h₂
  split
  · split
    · refine .bind (paces_visit fun w₃ h₃ hmem => ?_)
      have hw₃ := (hw₂.later h₃).rests hmem
      refine .bind ((moves_visit latch).paces hw₃.toTally fun _ w₄ h₄ => ?_)
      refine paces_arm_bind hb (hw₃.later h₄) hbody fun _ w₅ h₅ => ?_
      refine .bind ((moves_needed _ _).later.paces h₅.toTally fun _ w₆ h₆ => paces_pure ?_)
      exact (h₅.later h₆).goesOn hexit
    · exact paces_throw nofun hw₂.toTally
  · refine .bind (paces_raw hw₂.toTally fun _ w₃ h₃ hmem => paces_pure ?_)
    exact ((hw₂.later h₃).rests hmem).ends

/-! ## Every block -/

theorem paces_plain (hid : id ∈ p.flow.reachable) (hw : Awaits p least id few w) :
    Paces p (Construct.plain p build id r) w (Onto p least) := by
  refine .bind (paces_visit fun w₁ h₁ hmem => ?_)
  have hw₁ := (hw.later h₁).rests hmem
  refine .bind ((moves_lift? p id).later.paces hw₁.toTally fun lifted w₂ h₂ => ?_)
  have hw₂ := hw₁.later h₂
  have hnext {t : Nat} (ht : t ∈ (p.flow.ending id).successors) : t ∈ p.flow.reachable :=
    hf.next_mem hid ht
  cases lifted with
  | none =>
    refine .bind ((moves_raw p id .notLifted).paces hw₂.toTally fun _ w₃ h₃ => ?_)
    have hw₃ := hw₂.later h₃
    split
    · rename_i t hending
      exact paces_pure (hw₃.goesOn (hnext (by rw [hending]; exact List.mem_singleton_self t)))
    · rename_i t hending
      exact paces_pure (hw₃.goesOn (hnext (by rw [hending]; exact List.mem_singleton_self t)))
    · exact paces_pure hw₃.ends
  | some l =>
    dsimp only
    split
    · rename_i x y hending
      have harms : (p.flow.ending id).arms? = some (x, y) := by
        rw [hending]
        rfl
      obtain ⟨hx, hy⟩ := Ending.mem_of_arms? harms
      exact paces_conditional hf hb hw₂ hid (hnext hx) (hnext hy)
    · exact paces_pure hw₂.ends
    · refine paces_pure (hw₂.onto fun t ht => hnext ?_)
      cases hending : p.flow.ending id <;> rw [hending] at ht <;> cases ht <;>
        exact List.mem_singleton_self _

/-- **The construct at a block** that has no step, or one if it is the header of the loop that the
region is the body of. -/
theorem paces_build (hbudget : 2 * p.flow.exit ≤ p.budget) (hid : id ∈ p.flow.reachable)
    (hreal : id < p.flow.exit) {n : Nat} (hw : Awaits p n id few w) (hn : least ≤ n + 1)
    (hfew : few = 0 ∨ few = 1 ∧ r.header = some id) :
    Paces p (Construct.build p build id r) w (Onto p least) := by
  have hone : few ≤ 1 := by
    rcases hfew with rfl | ⟨rfl, -⟩ <;> omega
  refine .bind (paces_step hbudget hreal hw hone hn fun w₁ hw₁ => ?_)
  split
  · rename_i l hloop
    obtain ⟨hl, hheader⟩ := Option.filter_eq_some_iff.mp hloop
    rcases hfew with rfl | ⟨-, hheader'⟩
    · exact paces_loop hf hb hl hid hreal hw₁
    · simp [hheader'] at hheader
  · split
    · rename_i body exit hending
      have harms : (p.flow.ending id).arms? = some (body, exit) := by
        rw [hending]
        rfl
      obtain ⟨hbody, hexit⟩ := Ending.mem_of_arms? harms
      exact paces_iteration hb (hf.next_mem hid hbody) (hf.next_mem hid hexit) hw₁
    · refine .bind (paces_raw hw₁.toTally fun _ w₂ h₂ hmem => paces_pure ?_)
      exact ((hw₁.later h₂).rests hmem).ends
    · exact paces_plain hf hb hid hw₁

/-! ## Bodies -/

/-- A body is built on after its first construct. -/
theorem paces_onwards (hbudget : 2 * p.flow.exit ≤ p.budget) (hid : id ∈ p.flow.reachable)
    (hreal : id < p.flow.exit) {n : Nat} (hw : Awaits p n id few w) (hn : least ≤ n + 1)
    (hfew : few = 0 ∨ few = 1 ∧ r.header = some id) :
    Paces p (do
      let (nodes, next) ← Construct.build p build id r
      match next with
      | none => return nodes
      | some id => return nodes ++ (← build false id r)) w fun _ w' => Rests p least w' := by
  refine .bind ((paces_build hf hb hbudget hid hreal hw hn hfew).mono ?_)
  rintro ⟨nodes, next⟩ w₁ ⟨hw₁, hnext⟩
  cases next with
  | none => exact paces_pure hw₁
  | some next =>
    refine .bind ((hb.plain next r w₁ (hnext next rfl) hw₁).mono fun _ w₂ hw₂ => ?_)
    exact paces_pure hw₂

end Constructs

theorem Rests.mono {n : Nat} (h : Rests p n w) (hn : least ≤ n) : Rests p least w :=
  ⟨h.toTally, h.visited, Nat.le_trans hn h.least⟩

/-- **The steps of bodies.** A body without fuel would come after more steps than there can be. -/
theorem treads_body (hf : p.flow.Analysed) (hbudget : 2 * p.flow.exit ≤ p.budget) (fuel : Nat) :
    Treads p (body p fuel) (p.budget + 1 - fuel) := by
  induction fuel with
  | zero =>
    refine ⟨fun start r w _ hw => ?_, fun start r w _ _ _ hw => ?_⟩ <;>
    · have := hw.least
      have := hw.steps_le
      omega
  | succ fuel ih =>
    have hn : p.budget + 1 - fuel ≤ p.budget + 1 - (fuel + 1) + 1 := by
      omega
    have hle : p.budget + 1 - (fuel + 1) ≤ p.budget + 1 - fuel := by
      omega
    refine ⟨fun start r w hstart hw => ?_, fun start r w hstart hreal hheader hw => ?_⟩
    · refine paces_get ?_
      dsimp only
      rw [if_neg Bool.false_ne_true]
      split
      · exact paces_pure hw
      · refine .bind ((moves_goto _ _).later.paces hw.toTally fun _ w₁ h₁ => ?_)
        exact paces_pure (hw.later h₁)
      · rename_i honward
        obtain ⟨hreal, hfresh⟩ := lt_exit_of_builds hf hstart honward
        exact (paces_onwards hf ih hbudget hstart hreal (hw.awaits hfresh) hn (.inl rfl)).mono
          fun _ _ h => h.mono hle
    · refine paces_get ?_
      exact (paces_onwards hf ih hbudget hstart hreal hw hn (.inr ⟨rfl, hheader⟩)).mono
        fun _ _ h => h.mono hle

/-! ## Functions -/

theorem rests_start (p : Plan) : Rests p 0 {} :=
  ⟨⟨nofun, fun _ => Nat.zero_le _⟩, nofun, Nat.zero_le _⟩

/-- **The steps of a function.** At most two steps are taken at a block, and there is no want of
budget. -/
theorem paces_function (hf : p.flow.Analysed) (hbudget : 2 * p.flow.exit ≤ p.budget) :
    Paces p (function p) {} fun _ w => Tally p w := by
  have hstart : Rests p (p.budget + 1 - (p.budget + 1)) {} :=
    (rests_start p).mono (by omega)
  refine .bind (((treads_body hf hbudget _).plain 0 _ {} hf.zero_mem hstart).mono fun _ w₁ h₁ => ?_)
  refine .bind ((moves_leftovers p).paces h₁.toTally fun _ w₂ h₂ => ?_)
  have ht := h₁.toTally.later h₂
  refine .bind ((moves_checkCoverage p _).later.paces ht fun _ w₃ h₃ => ?_)
  exact paces_pure (ht.later h₃)

end Unscript.Structuring
