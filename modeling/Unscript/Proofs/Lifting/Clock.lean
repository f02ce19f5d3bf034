import Unscript.Proofs.Lifting.Steady

/-!
# The clock

A machine that tells when values were read. Its state is a log of the statements done so far, whose
length is the time. Where statements and expressions are evaluated one after another, every
statement uses values that are read when it is executed. After a run that is not steady, a value was
read before the statement that uses it, or before the last one.

* `Machine.clock`: the machine.
* `Machine.Stale`: a frame that shows a value read too early.
* `Machine.Fresh`: a log without such values.

Results:
* `Machine.exists_stale`: a run that is not steady leaves a stale frame.
* `Machine.not_stale_of_eq`: statements and expressions do not.
-/

namespace Unscript

namespace Machine

open Instruction (Straight)

variable {d : Dialect} {block : Nat} {s s' : Symbolic} {i : Instruction} {a : Action}
  {is : List Instruction}

/-! ## Time -/

/-- The times at which the parts of a value were read or called. -/
abbrev Times := List Nat

/-- For every statement done, the times of what it used. -/
abbrev Log := List Times

/-- The machine that keeps when values were read. The state lists what statements did so far, and
its length is the time; a value lists the times at which its parts were read or called, and a
statement keeps the times of what it uses. -/
def clock : Machine Log Times where
  const _ := []
  bool _ := []
  self := []
  slot _ s := [s.length]
  member _ s := [s.length]
  global _ s := [s.length]
  attr u _ s := s.length :: u
  index u k s := s.length :: (u ++ k)
  binary _ u v := u ++ v
  unary _ v := v
  cast v _ := v
  array vs := vs.flatten
  dictionary vs := vs.flatten
  builtin _ vs s := (s.length :: vs.flatten, s)
  method u _ vs s := (s.length :: (u ++ vs.flatten), s)
  call _ vs s := (s.length :: vs.flatten, s)
  yield vs s := (s.length :: vs.flatten, s)
  storeSlot _ v s := s ++ [v]
  storeMember _ v s := s ++ [v]
  storeAttr u _ v s := s ++ [u ++ v]
  storeIndex u k v s := s ++ [u ++ k ++ v]
  discard v s := s ++ [v]
  assert v s := s ++ [v]
  breakpoint s := s ++ [[]]

mutual

/-- Evaluation takes no time: all parts of a value are read at once, and a value that depends on the
state has such parts. -/
theorem eval_clock (s : Log) : ∀ e : Expr, (clock.eval e s).2 = s ∧
    (∀ t ∈ (clock.eval e s).1, t = s.length) ∧ (e.isFixed = false → (clock.eval e s).1 ≠ [])
  | .const _ | .bool _ | .self => by
    simp [eval, clock, Expr.isFixed, Expr.walk, Expr.needsNoState]
  | .slot _ | .member _ | .global _ => by
    simp [eval, clock]
  | .attr obj name => by
    obtain ⟨hstate, htimes, -⟩ := eval_clock s obj
    have heq : clock.eval (.attr obj name) s = (s.length :: (clock.eval obj s).1, s) := by
      simp only [eval, hstate]
      rfl
    simpa [heq] using htimes
  | .index obj key => by
    obtain ⟨hobj, htimes, -⟩ := eval_clock s obj
    obtain ⟨hkey, htimes', -⟩ := eval_clock s key
    have heq : clock.eval (.index obj key) s =
        (s.length :: ((clock.eval obj s).1 ++ (clock.eval key s).1), s) := by
      simp only [eval, hobj, hkey]
      rfl
    simpa [heq, or_imp, forall_and] using ⟨htimes, htimes'⟩
  | .binary op left right => by
    obtain ⟨hleft, htimes, hne⟩ := eval_clock s left
    obtain ⟨hright, htimes', hne'⟩ := eval_clock s right
    have heq : clock.eval (.binary op left right) s =
        ((clock.eval left s).1 ++ (clock.eval right s).1, s) := by
      simp only [eval, hleft, hright]
      rfl
    rw [heq]
    refine ⟨rfl, by simpa [or_imp, forall_and] using ⟨htimes, htimes'⟩, fun hfixed => ?_⟩
    rw [Expr.isFixed_binary, Bool.and_eq_false_iff] at hfixed
    rcases hfixed with hfixed | hfixed
    · simp [hne hfixed]
    · simp [hne' hfixed]
  | .unary op operand => by
    obtain ⟨hstate, htimes, hne⟩ := eval_clock s operand
    have heq : clock.eval (.unary op operand) s = ((clock.eval operand s).1, s) := by
      simp only [eval, hstate]
      rfl
    rw [heq, Expr.isFixed_unary]
    exact ⟨rfl, htimes, hne⟩
  | .cast value name => by
    obtain ⟨hstate, htimes, hne⟩ := eval_clock s value
    have heq : clock.eval (.cast value name) s = ((clock.eval value s).1, s) := by
      simp only [eval, hstate]
      rfl
    rw [heq, Expr.isFixed_cast]
    exact ⟨rfl, htimes, hne⟩
  | .method obj name args => by
    obtain ⟨hobj, htimes, -⟩ := eval_clock s obj
    obtain ⟨hargs, htimes', -⟩ := evalAll_clock s args
    have heq : clock.eval (.method obj name args) s =
        (s.length :: ((clock.eval obj s).1 ++ (eval.evalAll clock args s).1.flatten), s) := by
      simp only [eval, hobj, hargs]
      rfl
    simpa [heq, or_imp, forall_and] using ⟨htimes, fun t v hv ht => htimes' v hv t ht⟩
  | .group of items => by
    obtain ⟨hstate, htimes, hne⟩ := evalAll_clock s items
    have hflat : ∀ t ∈ (eval.evalAll clock items s).1.flatten, t = s.length := by
      simpa using fun t v hv ht => htimes v hv t ht
    have hsome : (∃ e ∈ items, e.isFixed = false) →
        (eval.evalAll clock items s).1.flatten ≠ [] := by
      intro h hnil
      obtain ⟨v, hv, hv'⟩ := hne h
      exact hv' (List.flatten_eq_nil_iff.mp hnil v hv)
    rw [Expr.isFixed_group]
    simp only [eval, hstate]
    cases of with
    | builtin _ | call _ | yield =>
      exact ⟨rfl, List.forall_mem_cons.mpr ⟨rfl, hflat⟩, fun _ => List.cons_ne_nil _ _⟩
    | array | dictionary =>
      refine ⟨rfl, hflat, fun hfixed => hsome ?_⟩
      simpa [Expr.needsNoState] using hfixed

theorem evalAll_clock (s : Log) : ∀ es : List Expr, (eval.evalAll clock es s).2 = s ∧
    (∀ v ∈ (eval.evalAll clock es s).1, ∀ t ∈ v, t = s.length) ∧
      ((∃ e ∈ es, e.isFixed = false) → ∃ v ∈ (eval.evalAll clock es s).1, v ≠ [])
  | [] => by simp [eval.evalAll]
  | e :: es => by
    obtain ⟨hstate, htimes, hne⟩ := eval_clock s e
    obtain ⟨hstates, htimess, hnes⟩ := evalAll_clock s es
    simp only [eval.evalAll, hstate, hstates, List.mem_cons]
    refine ⟨trivial, ?_, ?_⟩
    · rintro v (rfl | hv)
      · exact htimes
      · exact htimess v hv
    · rintro ⟨e', rfl | he', hfixed⟩
      · exact ⟨_, .inl rfl, hne hfixed⟩
      · obtain ⟨v, hv, hv'⟩ := hnes ⟨e', he', hfixed⟩
        exact ⟨v, .inr hv, hv'⟩

end

/-- What the clock makes of the values that an action takes: a product of the same kind, with all
their times. -/
def Ticks (p : Product) (vs : List Times) (s : Log) :
    Reaction Log Times → Prop
  | .act s' => (p = .nothing ∧ vs = [] ∧ s' = s) ∨
      ∃ stmt entry, p = .act stmt ∧ s' = s ++ [entry] ∧ ∀ v ∈ vs, ∀ t ∈ v, t ∈ entry
  | .push w s' => (∃ e, p = .push e) ∧ s' = s ∧ ∀ v ∈ vs, ∀ t ∈ v, t ∈ w
  | .take w s' => (∃ e, p = .value e) ∧ s' = s ∧ ∀ v ∈ vs, ∀ t ∈ v, t ∈ w

/-- **One instruction on the clock.** -/
theorem exists_ticks (hname : i.mnemonic ∈ a.mnemonics) {args : List Expr} {vs : List Times}
    (hargs : a.Fits i.operands args) (hvs : a.Fits i.operands vs) (s : Log) :
    ∃ r, clock.perform i vs s = some r ∧ Ticks (a.product i args) vs s r := by
  have hflatten {t : Nat} {v : Times} (hv : v ∈ vs) (ht : t ∈ v) : t ∈ vs.flatten :=
    List.mem_flatten.mpr ⟨v, hv, ht⟩
  generalize hoperands : i.operands = operands at hargs hvs
  unfold perform
  rw [hoperands]
  cases hargs with
  | nothing =>
    cases hvs
    simp only [Action.mnemonics, List.mem_cons, List.not_mem_nil, or_false] at hname
    rcases hname with hname | hname | hname <;> rw [hname] <;>
      exact ⟨_, rfl, .inl ⟨rfl, rfl, rfl⟩⟩
  | consume =>
    cases hvs
    simp only [Action.mnemonics, List.mem_cons, List.not_mem_nil, or_false] at hname
    rcases hname with hname | hname | hname | hname <;> rw [hname] <;>
      exact ⟨_, rfl, ⟨_, rfl⟩, rfl, by simp⟩
  | @unary op =>
    cases hvs
    rw [List.mem_singleton.mp hname]
    cases op <;> exact ⟨_, rfl, ⟨_, rfl⟩, rfl, by simp [clock]⟩
  | @binary op =>
    cases hvs
    rw [List.mem_singleton.mp hname]
    cases op <;> exact ⟨_, rfl, ⟨_, rfl⟩, rfl, by simp +contextual [clock, or_imp]⟩
  | makeArray | makeDictionary =>
    rw [List.mem_singleton.mp hname]
    exact ⟨_, rfl, ⟨_, rfl⟩, rfl, fun v hv t ht => hflatten hv ht⟩
  | yield | callBuiltin | callSelf =>
    simp only [Action.product, hoperands]
    rw [List.mem_singleton.mp hname]
    exact ⟨_, rfl, ⟨_, rfl⟩, rfl, fun v hv t ht => List.mem_cons_of_mem _ (hflatten hv ht)⟩
  | callMethod =>
    cases hvs
    simp only [Action.product, hoperands]
    rw [List.mem_singleton.mp hname]
    exact ⟨_, rfl, ⟨_, rfl⟩, rfl, fun v hv t ht => List.mem_cons_of_mem _ (hflatten hv ht)⟩
  | loadConst | loadSlot | loadSelf | loadMember | loadGlobal =>
    cases hvs
    simp only [Action.product, hoperands]
    rw [List.mem_singleton.mp hname]
    exact ⟨_, rfl, ⟨_, rfl⟩, rfl, by simp⟩
  | getAttr | getIndex | cast =>
    cases hvs
    simp only [Action.product, hoperands]
    rw [List.mem_singleton.mp hname]
    exact ⟨_, rfl, ⟨_, rfl⟩, rfl, by simp +contextual [clock, or_imp]⟩
  | storeSlot | storeMember | setAttr | setIndex | drop | assert | breakpoint =>
    cases hvs
    simp only [Action.product, hoperands]
    rw [List.mem_singleton.mp hname]
    exact ⟨_, rfl, .inr ⟨_, _, rfl, rfl, by simp +contextual [or_imp]⟩⟩

/-- A frame of the clock that shows a value read before the last statement, or a statement that used
a value read before it. -/
def Stale (f : Frame Log Times) : Prop :=
  (∃ v ∈ f.stack, ∃ t ∈ v, t < f.state.length) ∨ (∃ v ∈ f.taken, ∃ t ∈ v, t < f.state.length) ∨
    ∃ k, ∃ v : Times, f.state[k]? = some v ∧ ∃ t ∈ v, t < k

/-- A stale frame stays so: what is taken from the stack is kept elsewhere. -/
theorem Stale.next {f : Frame Log Times} (h : Stale f) (htaken : f.taken = none)
    (hlength : f.stack.length = s.stack.length) (hi : i.Performs d a)
    (hs : s.step d block i = .ok s') :
    ∃ f', clock.step d f i = some f' ∧ Stale f' ∧ f'.stack.length = s'.stack.length ∧
      (a ≠ .consume → f'.taken = none) := by
  obtain ⟨args, rest, hstack, hargs, rfl⟩ := Symbolic.exists_of_step hi.toBalanced hs
  obtain ⟨vs, ws, hsplit, hvs⟩ : ∃ vs ws : List Times, f.stack = vs.reverse ++ ws ∧
      vs.length = args.length := by
    refine ⟨(f.stack.take args.length).reverse, f.stack.drop args.length, by simp, ?_⟩
    have hle : args.length ≤ s.stack.length := by
      rw [hstack]
      simp
    rw [List.length_reverse, List.length_take]
    omega
  have hws : ws.length = rest.length := by
    rw [hsplit, hstack] at hlength
    simp only [List.length_append, List.length_reverse] at hlength
    omega
  have hfits := Action.fits_of_length hi.takes hargs
  obtain ⟨r, hr, hticks⟩ := exists_ticks hi.name hfits
    (Action.fits_of_length hi.takes (hvs.trans hargs)) f.state
  rw [step_eq hi.toBalanced hsplit (hvs.trans hargs), hr]
  refine ⟨_, rfl, ?_⟩
  -- What was read too early was taken, or it waits, or a statement used it.
  have hcases : (∃ v ∈ vs, ∃ t ∈ v, t < f.state.length) ∨
      (∃ v ∈ ws, ∃ t ∈ v, t < f.state.length) ∨
      ∃ k, ∃ v : Times, f.state[k]? = some v ∧ ∃ t ∈ v, t < k := by
    rcases h with ⟨v, hv, hlate⟩ | ⟨v, hv, -⟩ | hlog
    · rw [hsplit, List.mem_append, List.mem_reverse] at hv
      exact hv.elim (fun hv => .inl ⟨v, hv, hlate⟩) fun hv => .inr (.inl ⟨v, hv, hlate⟩)
    · rw [htaken] at hv
      cases hv
    · exact .inr (.inr hlog)
  cases r with
  | act state =>
    rcases hticks with ⟨hproduct, rfl, rfl⟩ | ⟨stmt, entry, hproduct, rfl, hkept⟩
    · rw [hproduct]
      refine ⟨?_, hws, fun _ => htaken⟩
      rcases hcases with ⟨v, hv, -⟩ | hlate | hlog
      · cases hv
      · exact .inl hlate
      · exact .inr (.inr hlog)
    · rw [hproduct]
      refine ⟨?_, hws, fun _ => htaken⟩
      rcases hcases with ⟨v, hv, t, ht, hlt⟩ | ⟨v, hv, t, ht, hlt⟩ | ⟨k, v, hk, hlate⟩
      · exact .inr (.inr ⟨f.state.length, entry, by simp [Frame.receive], t, hkept v hv t ht, hlt⟩)
      · exact .inl ⟨v, hv, t, ht, by simp [Frame.receive]; omega⟩
      · have hlt := (List.getElem?_eq_some_iff.mp hk).1
        exact .inr (.inr ⟨k, v, by simp [Frame.receive, List.getElem?_append_left hlt, hk], hlate⟩)
  | push w state =>
    obtain ⟨⟨e, hproduct⟩, rfl, hkept⟩ := hticks
    rw [hproduct]
    refine ⟨?_, by simp [Frame.receive, Symbolic.receive, Symbolic.push, hws], fun _ => htaken⟩
    rcases hcases with ⟨v, hv, t, ht, hlt⟩ | ⟨v, hv, hlate⟩ | hlog
    · exact .inl ⟨w, List.mem_cons_self, t, hkept v hv t ht, hlt⟩
    · exact .inl ⟨v, List.mem_cons_of_mem _ hv, hlate⟩
    · exact .inr (.inr hlog)
  | take w state =>
    obtain ⟨⟨e, hproduct⟩, rfl, hkept⟩ := hticks
    have ha := (Action.eq_consume_of_product hproduct).1
    rw [hproduct]
    refine ⟨?_, hws, fun hne => absurd ha hne⟩
    rcases hcases with ⟨v, hv, t, ht, hlt⟩ | hlate | hlog
    · exact .inr (.inl ⟨w, rfl, t, hkept v hv t ht, hlt⟩)
    · exact .inl hlate
    · exact .inr (.inr hlog)

/-- The rest of a run from a stale frame. -/
theorem Stale.run {f : Frame Log Times} (h : Stale f) (htaken : f.taken = none)
    (hlength : f.stack.length = s.stack.length) (hall : ∀ i ∈ is, ∃ a, i.Performs d a)
    (hstraight : Straight is)
    (hrun : is.foldlM (Symbolic.step d block) s = .ok s') :
    ∃ f', is.foldlM (clock.step d) f = some f' ∧ Stale f' ∧
      f'.stack.length = s'.stack.length := by
  induction is generalizing s f with
  | nil =>
    cases hrun
    exact ⟨f, rfl, h, hlength⟩
  | cons i is ih =>
    obtain ⟨a, hi⟩ := hall i List.mem_cons_self
    rw [List.foldlM_cons] at hrun
    obtain ⟨s₁, hs₁, hrun⟩ := Outcome.bind_eq_ok.mp hrun
    obtain ⟨f₁, hf₁, hstale, hlength₁, htaken₁⟩ := h.next htaken hlength hi hs₁
    rw [List.foldlM_cons, hf₁]
    by_cases hlast : is = []
    · subst hlast
      cases hrun
      exact ⟨f₁, rfl, hstale, hlength₁⟩
    · exact ih hstale (htaken₁ (hstraight.ne_consume hi hlast)) hlength₁
        (fun j hj => hall j (List.mem_cons_of_mem _ hj)) hstraight.tail hrun

/-- A statement takes time. -/
theorem exec_clock_of_product (hi : i.Performs d a) {args : List Expr}
    (hargs : args.length = a.effect.taken i.operands) {stmt : Stmt}
    (hproduct : a.product i args = .act stmt) (s : Log) :
    ∃ entry, clock.exec stmt s = s ++ [entry] := by
  have hfits := Action.fits_of_length hi.takes hargs
  have hperform := clock.perform_product hi.name hfits s
  obtain ⟨r, hr, hticks⟩ := exists_ticks hi.name hfits
    (Action.fits_of_length hi.takes ((clock.length_evalAll args s).trans hargs)) s
  rw [(evalAll_clock s args).1, hr, hproduct] at hperform
  cases Option.some.inj hperform
  rcases hticks with ⟨hnothing, -⟩ | ⟨_, entry, -, hstate, -⟩
  · rw [hproduct] at hnothing
    cases hnothing
  · exact ⟨entry, hstate⟩

/-- A run that is not steady leaves a stale frame. -/
theorem exists_stale {f : Frame Log Times} {s₀ : Log}
    (hall : ∀ i ∈ is, ∃ a, i.Performs d a) (hstraight : Straight is) (h : clock.Follows s₀ s f)
    (hrun : is.foldlM (Symbolic.step d block) s = .ok s')
    (hsteady : s.steadyFrom d block is = false) :
    ∃ f', is.foldlM (clock.step d) f = some f' ∧ Stale f' ∧
      f'.stack.length = s'.stack.length := by
  induction is generalizing s f with
  | nil => cases hsteady
  | cons i is ih =>
    obtain ⟨a, hi⟩ := hall i List.mem_cons_self
    have hall' : ∀ j ∈ is, ∃ a, j.Performs d a := fun j hj => hall j (List.mem_cons_of_mem _ hj)
    rw [List.foldlM_cons] at hrun
    obtain ⟨s₁, hs₁, hrun⟩ := Outcome.bind_eq_ok.mp hrun
    rw [Symbolic.steadyFrom, hs₁] at hsteady
    simp only [Bool.and_eq_false_iff, Bool.or_eq_false_iff] at hsteady
    rw [List.foldlM_cons]
    by_cases hnow : s₁.statements.length = s.statements.length ∨ s₁.stack.all Expr.isFixed
    · have hlater : s₁.steadyFrom d block is = false := by
        rcases hsteady with ⟨hmade, hwaits⟩ | hlater
        · rcases hnow with heq | hfixed
          · rw [heq, beq_self_eq_true] at hmade
            cases hmade
          · rw [hfixed] at hwaits
            cases hwaits
        · exact hlater
      have hne : is ≠ [] := by
        rintro rfl
        cases hlater
      obtain ⟨f₁, hf₁, hnext⟩ := h.next hi (hstraight.ne_consume hi hne) hs₁ hnow
      rw [hf₁]
      exact ih hall' hstraight.tail hnext hrun hlater
    · -- A statement is made while a value waits that was read before it.
      obtain ⟨hmade, hwaits⟩ := not_or.mp hnow
      obtain ⟨args, rest, hstack, hargs, rfl⟩ := Symbolic.exists_of_step hi.toBalanced hs₁
      obtain ⟨stmt, hproduct⟩ : ∃ stmt, a.product i args = .act stmt := by
        cases hproduct : a.product i args <;> rw [hproduct] at hmade <;>
          first | exact ⟨_, rfl⟩ | exact absurd rfl hmade
      rw [hproduct] at hwaits hrun
      obtain ⟨s₁, hlog⟩ : ∃ s₁, clock.execAll s.statements s₀ = s₁ := ⟨_, rfl⟩
      obtain ⟨entry, hexec⟩ := exec_clock_of_product hi hargs hproduct s₁
      obtain ⟨hstate, htimes, hsome⟩ := evalAll_clock s₁ rest.reverse
      obtain ⟨v, hv, hne⟩ := hsome (by simpa [Symbolic.receive, Symbolic.act] using hwaits)
      obtain ⟨t, ht⟩ := List.exists_mem_of_ne_nil v hne
      have hrest : eval.evalAll clock rest.reverse (clock.execAll s.statements s₀) =
          ((eval.evalAll clock rest.reverse s₁).1, s₁) := by
        rw [hlog]
        exact Prod.ext rfl hstate
      have hstep := h.step_eq hi hstack hargs hrest
      rw [hproduct, produce, hexec] at hstep
      rw [hstep]
      refine Stale.run (.inl ⟨v, ?_, t, ht, ?_⟩) h.taken ?_ hall' hstraight.tail hrun
      · exact List.mem_reverse.mpr hv
      · rw [htimes v hv t ht, Frame.receive, List.length_append]
        exact Nat.lt_succ_self _
      · simp [Frame.receive, Symbolic.receive, Symbolic.act, length_evalAll]

/-- A log of the clock whose statements used no value read before them. -/
def Fresh (s : Log) : Prop :=
  ∀ k, ∀ v : Times, s[k]? = some v → ∀ t ∈ v, t = k

theorem Fresh.append {s : Log} (h : Fresh s) {v : Times}
    (hv : ∀ t ∈ v, t = s.length) : Fresh (s ++ [v]) := by
  intro k w hw
  rcases Nat.lt_trichotomy k s.length with hlt | rfl | hgt
  · rw [List.getElem?_append_left hlt] at hw
    exact h k w hw
  · rw [List.getElem?_concat_length] at hw
    cases hw
    exact hv
  · rw [List.getElem?_eq_none (by simpa using Nat.succ_le_of_lt hgt)] at hw
    cases hw

/-- A statement that is executed uses values read when it is executed. -/
theorem Fresh.exec {s : Log} (h : Fresh s) (stmt : Stmt) :
    Fresh (clock.exec stmt s) := by
  cases stmt with
  | assign target value _ _ =>
    obtain ⟨hstate, htimes, -⟩ := eval_clock s value
    cases target with
    | slot k | member k =>
      simp only [Machine.exec, store, hstate]
      exact h.append htimes
    | attr obj name =>
      obtain ⟨hobj, htimes', -⟩ := eval_clock s obj
      simp only [Machine.exec, store, hobj, hstate]
      exact h.append (by simpa [or_imp, forall_and] using ⟨htimes', htimes⟩)
    | index obj key =>
      obtain ⟨hobj, htimes', -⟩ := eval_clock s obj
      obtain ⟨hkey, htimes'', -⟩ := eval_clock s key
      simp only [Machine.exec, store, hobj, hkey, hstate]
      exact h.append (by simpa [or_imp, forall_and] using ⟨htimes', htimes'', htimes⟩)
    | _ => exact h
  | expr e _ _ =>
    obtain ⟨hstate, htimes, -⟩ := eval_clock s e
    simp only [Machine.exec, hstate]
    exact h.append htimes
  | assert e _ =>
    obtain ⟨hstate, htimes, -⟩ := eval_clock s e
    simp only [Machine.exec, hstate]
    exact h.append htimes
  | breakpoint _ => exact h.append (by simp)

theorem Fresh.execAll {s : Log} (h : Fresh s) (stmts : List Stmt) :
    Fresh (clock.execAll stmts s) := by
  induction stmts generalizing s with
  | nil => exact h
  | cons stmt stmts ih => exact ih (h.exec stmt)

/-- A frame with the outcome of a lifted block shows nothing that was read too early. -/
theorem not_stale_of_eq {f : Frame Log Times} {stmts : List Stmt}
    {value : Option Expr} (hstack : f.stack = [])
    (h : (f.state, f.taken) = clock.evalEnding value (clock.execAll stmts [])) : ¬ Stale f := by
  have hfresh : Fresh (clock.execAll stmts []) :=
    Fresh.execAll (fun k v hv => by simp at hv) stmts
  generalize clock.execAll stmts [] = s at h hfresh
  obtain ⟨hstate, htaken⟩ : f.state = s ∧ ∀ v ∈ f.taken, ∀ t ∈ v, t = s.length := by
    cases value with
    | none =>
      obtain ⟨hstate, htaken⟩ := Prod.mk.inj h
      exact ⟨hstate, by simp [htaken]⟩
    | some e =>
      obtain ⟨hsame, htimes, -⟩ := eval_clock s e
      obtain ⟨hstate, htaken⟩ := Prod.mk.inj h
      refine ⟨hstate.trans hsame, ?_⟩
      rw [htaken]
      rintro v hv
      cases hv
      exact htimes
  rintro (⟨v, hv, -⟩ | ⟨v, hv, t, ht, hlt⟩ | ⟨k, v, hv, t, ht, hlt⟩)
  · rw [hstack] at hv
    cases hv
  · rw [htaken v hv t ht, hstate] at hlt
    exact Nat.lt_irrefl _ hlt
  · rw [hfresh k v (hstate ▸ hv) t ht] at hlt
    exact Nat.lt_irrefl _ hlt

end Machine

end Unscript
