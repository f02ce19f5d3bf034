import Unscript.Proofs.Flow.Joins
import Unscript.Proofs.Flow.NaturalLoops

/-!
# Closed paths

Some edge of every closed path leads to an earlier block. It is taken for one that returns, unless
its target is dominated by its source: then it is taken for a forward edge, although the path goes
round. So a closed path has an edge that returns, and a loop that holds it, exactly if one of its
blocks dominates it or one of its edges leads to an earlier block that its source does not dominate.

* `Circuit`: a closed path that passes no block twice; `Hop`: two blocks that follow each other on
  it.
* `Flow.Shown`: a closed path with an edge that returns, in terms of paths and positions.

Results:
* `Circuit.rotate`: a closed path is followed from each of its blocks.
* `Route.nodup_or_circuit`: a path passes no block twice, or holds a closed one.
* `Flow.Analysed.exists_returns_iff`, `Flow.Analysed.exists_loop_iff`: which closed paths have an
  edge that returns, and which ones a loop.
* `Flow.Analysed.acyclic_iff`: when the other edges have no closed path.
* `Flow.circuits_exact`: the closed paths of a function that was decoded to its end.
-/

namespace Unscript

variable {R S : Nat → Nat → Prop} {a b c x y : Nat} {r : List Nat}

/-- A closed path: its last block leads back to the first, and it passes no block twice. -/
def Circuit (R : Nat → Nat → Prop) (r : List Nat) : Prop :=
  ∃ a b, Route R a b r ∧ R b a ∧ r.Nodup

/-- Two blocks follow each other on the way round a closed path. -/
def Hop (r : List Nat) (x y : Nat) : Prop :=
  [x, y] <:+: r ++ r.take 1

/-! ## Paths -/

namespace Route

theorem exists_concat (h : Route R a b r) : ∃ front, r = front ++ [b] := by
  induction h with
  | stay => exact ⟨[], rfl⟩
  | @step a _ _ _ _ _ ih =>
    obtain ⟨front, rfl⟩ := ih
    exact ⟨a :: front, rfl⟩

theorem hop_last (h : Route R a b r) : Hop r b a := by
  obtain ⟨front, hfront⟩ := h.exists_concat
  obtain ⟨back, hback⟩ := h.exists_cons
  have hfirst : r.take 1 = [a] := by
    rw [hback]
    rfl
  unfold Hop
  rw [hfirst, hfront, List.append_assoc]
  exact List.infix_append' front [b, a] []

/-- A path is one along every relation that holds between the blocks that follow each other. -/
theorem mono (h : Route R a b r) (hS : ∀ x y, [x, y] <:+: r → S x y) : Route S a b r := by
  induction h with
  | stay a => exact .stay a
  | step _ rest ih =>
    obtain ⟨back, rfl⟩ := rest.exists_cons
    exact .step (hS _ _ (List.infix_append' [] [_, _] back))
      (ih fun x y hxy => hS x y (List.infix_cons hxy))

/-- A path with more blocks than its last one ends with a step. -/
theorem of_concat (h : Route R a c (r ++ [c])) (hr : r ≠ []) : ∃ b, Route R a b r ∧ R b c := by
  obtain ⟨front, b, rfl⟩ := (List.eq_nil_or_concat r).resolve_left hr
  rw [List.concat_eq_append, List.append_assoc] at h
  obtain ⟨hfront, hback⟩ := h.split
  obtain ⟨-, x, hbx, hx⟩ := hback.of_cons (List.cons_ne_nil c [])
  obtain ⟨_, hxc⟩ := hx.exists_cons
  obtain rfl := (List.cons.inj hxc).1
  exact ⟨b, by rwa [List.concat_eq_append], hbx⟩

/-- A path passes no block twice, or it holds a closed path. -/
theorem nodup_or_circuit (h : Route R a b r) :
    r.Nodup ∨ ∃ r', Circuit R r' ∧ ∀ x ∈ r', x ∈ r := by
  induction h with
  | stay => exact .inl (List.nodup_singleton _)
  | @step a c b r hac rest ih =>
    rcases ih with hnodup | ⟨r', hr', hsub⟩
    · by_cases ha : a ∈ r
      · -- Up to where the path comes back to its first block it is closed.
        obtain ⟨front, back, rfl⟩ := List.append_of_mem ha
        obtain ⟨b, hr, hba⟩ := (Route.step hac rest.split.1).of_concat (List.cons_ne_nil a front)
        refine .inr ⟨a :: front, ⟨a, b, hr, hba, ?_⟩, fun x hx => ?_⟩
        · exact (List.nodup_middle.mp hnodup).sublist
            ((List.sublist_append_left front back).cons_cons a)
        · exact List.mem_cons_of_mem _ (by simpa using Or.symm (List.mem_cons.mp hx) |>.imp_right .inl)
      · exact .inl (List.nodup_cons.mpr ⟨ha, hnodup⟩)
    · exact .inr ⟨r', hr', fun x hx => List.mem_cons_of_mem _ (hsub x hx)⟩

end Route

/-! ## Closed paths -/

namespace Circuit

/-- What the next step of a closed path leads to stands on it. -/
theorem exists_closed (h : Circuit R r) : ∃ a, r.take 1 = [a] ∧ Route R a a (r ++ [a]) := by
  obtain ⟨a, b, hr, hba, -⟩ := h
  obtain ⟨back, rfl⟩ := hr.exists_cons
  exact ⟨a, rfl, hr.concat hba⟩

/-- **A closed path is followed from each of its blocks.** -/
theorem rotate (h : Circuit R r) (hxy : Hop r x y) :
    R x y ∧ ∃ r', Route R y x r' ∧ r'.Perm r ∧ r'.Nodup := by
  have hnodup : r.Nodup := by
    obtain ⟨_, _, -, -, hnodup⟩ := h
    exact hnodup
  obtain ⟨a, ha, hr⟩ := h.exists_closed
  obtain ⟨front, back, hcut⟩ := hxy
  rw [ha] at hcut
  have hcut : r ++ [a] = front ++ x :: y :: back := by
    rw [← hcut, List.append_assoc, List.cons_append, List.cons_append, List.nil_append]
  rw [hcut] at hr
  obtain ⟨hfront, hback⟩ := hr.split
  obtain ⟨-, z, hxz, hz⟩ := hback.of_cons (List.cons_ne_nil y back)
  obtain ⟨_, hyz⟩ := hz.exists_cons
  obtain rfl : y = z := (List.cons.inj hyz).1
  -- The part behind the step ends where the part before it starts.
  obtain ⟨q, hq⟩ := hz.exists_concat
  obtain ⟨s, hs⟩ := hfront.exists_cons
  rw [hq] at hz
  rw [hs] at hfront
  have hperm : (q ++ a :: s).Perm r := by
    have hclosed : r ++ [a] = (a :: s ++ q) ++ [a] := by
      rw [hcut, ← hs, List.append_assoc, List.append_assoc, ← hq]
      rfl
    rw [List.append_cancel_right hclosed]
    exact List.perm_append_comm
  exact ⟨hxz, _, hz.append hfront, hperm, hperm.nodup_iff.mpr hnodup⟩

theorem arrow (h : Circuit R r) (hxy : Hop r x y) : R x y :=
  (h.rotate hxy).1

theorem mem_of_hop (h : Circuit R r) (hxy : Hop r x y) : x ∈ r ∧ y ∈ r := by
  obtain ⟨-, r', hr', hperm, -⟩ := h.rotate hxy
  exact ⟨hperm.mem_iff.mp hr'.mem_last, hperm.mem_iff.mp hr'.mem_first⟩

/-- From every block of a closed path it leads on to the start of a step without passing its end. -/
theorem exists_route_to_hop (h : Circuit R r) (hxy : Hop r x y) {z : Nat} (hz : z ∈ r) :
    z = y ∨ ∃ r', Route R z x r' ∧ y ∉ r' := by
  obtain ⟨-, r', hr', hperm, hnodup⟩ := h.rotate hxy
  obtain ⟨front, back, rfl⟩ := List.append_of_mem (hperm.mem_iff.mpr hz)
  cases front with
  | nil =>
    obtain ⟨_, hy⟩ := hr'.exists_cons
    exact .inl (List.cons.inj hy).1
  | cons c front =>
    obtain ⟨_, hy⟩ := hr'.exists_cons
    obtain rfl : c = y := (List.cons.inj hy).1
    have hfresh := (List.nodup_cons.mp hnodup).1
    exact .inr ⟨_, hr'.split.2, fun hmem => hfresh (List.mem_append_right front hmem)⟩

theorem exists_hop_from (h : Circuit R r) (hx : x ∈ r) : ∃ y, Hop r x y := by
  obtain ⟨a, ha, -⟩ := h.exists_closed
  obtain ⟨front, back, rfl⟩ := List.append_of_mem hx
  unfold Hop
  rw [ha, List.append_assoc, List.cons_append]
  cases back with
  | nil => exact ⟨a, List.infix_append' front [x, a] []⟩
  | cons y back => exact ⟨y, List.infix_append' front [x, y] (back ++ [a])⟩

theorem exists_hop_to (h : Circuit R r) (hy : y ∈ r) : ∃ x, Hop r x y := by
  obtain ⟨a, b, hr, -, -⟩ := h
  obtain ⟨front, back, rfl⟩ := List.append_of_mem hy
  rcases List.eq_nil_or_concat front with rfl | ⟨front, x, rfl⟩
  · obtain ⟨_, ha⟩ := hr.exists_cons
    obtain rfl : y = a := (List.cons.inj ha).1
    exact ⟨b, hr.hop_last⟩
  · refine ⟨x, front, back ++ (front.concat x ++ y :: back).take 1, ?_⟩
    simp only [List.concat_eq_append, List.append_assoc, List.cons_append, List.nil_append]

/-- A closed path is one along every relation that holds along it. -/
theorem mono (h : Circuit R r) (hS : ∀ x y, Hop r x y → S x y) : Circuit S r := by
  obtain ⟨a, b, hr, hba, hnodup⟩ := h
  exact ⟨a, b, hr.mono fun x y hxy => hS x y (hxy.trans (List.prefix_append _ _).isInfix),
    hS b a hr.hop_last, hnodup⟩

/-- Along a closed path nothing always grows. -/
theorem exists_hop_le (h : Circuit R r) (m : Nat → Nat) : ∃ x y, Hop r x y ∧ m y ≤ m x := by
  by_contra hnone
  push Not at hnone
  obtain ⟨a, b, hr, hba, -⟩ := h.mono (S := fun x y => m x < m y) hnone
  have hle : ∀ {a b r}, Route (fun x y => m x < m y) a b r → m a ≤ m b := by
    intro a b r hr
    induction hr with
    | stay => exact Nat.le_refl _
    | step hlt _ ih => exact Nat.le_trans (Nat.le_of_lt hlt) ih
  exact Nat.not_lt.mpr (hle hr) hba

end Circuit

namespace Flow

open Unscript.Graph (EdgeKind entryOf)

/-- **A closed path that is shown**: one of its blocks dominates it, or one of its edges leads to an
earlier block that its source does not dominate. -/
def Shown (f : Flow) (r : List Nat) : Prop :=
  (∃ a ∈ r, ∀ x ∈ r, f.Dominates a x) ∨
    ∃ x y, Hop r x y ∧ (f.block y).start ≤ (f.block x).start ∧ ¬ f.Dominates x y

namespace Analysed

variable {f : Flow}

/-! ## Edges that return -/

/-- The edges that return, between blocks that go on. -/
theorem returns_iff (h : f.Analysed) {z : Nat} (hx : x ∈ f.reachable) (hxy : f.graph.Arrow x y)
    (hyz : f.graph.Arrow y z) : f.Returns x y ↔
      f.Dominates y x ∨ (f.block y).start ≤ (f.block x).start ∧ ¬ f.Dominates x y := by
  have hy : y ∈ f.reachable := h.next_mem hx (h.arrow_iff.mp hxy)
  have hvirtual : (f.graph.block y).isVirtual = false := by
    have hnext := h.arrow_iff.mp hyz
    unfold Flow.ending Flow.block at hnext
    unfold Block.isVirtual
    cases hending : (f.graph.block y).ending with
    | exit =>
      rw [hending] at hnext
      cases hnext
    | _ => rfl
  rw [← h.mem_dominators_iff (h.exists_route_of_arrow hx hxy),
    ← h.mem_dominators_iff (h.exists_route_of_arrow hy hyz)]
  unfold Returns Flow.kind Graph.edgeKind
  rw [if_neg (not_not.mpr hx)]
  split_ifs <;> simp_all [Flow.block]

theorem mem_onward_iff (h : f.Analysed) :
    y ∈ f.onward x ↔ f.graph.Arrow x y ∧ ¬ f.Returns x y := by
  rw [mem_onward, h.arrow_iff]
  unfold Returns
  rw [not_or]
  exact Iff.rfl

section Circuits

variable (h : f.Analysed) (hc : Circuit f.graph.Arrow r) (hr : ∀ x ∈ r, x ∈ f.reachable)

include h hc hr

theorem hop_returns_iff (hxy : Hop r x y) : f.Returns x y ↔
    f.Dominates y x ∨ (f.block y).start ≤ (f.block x).start ∧ ¬ f.Dominates x y := by
  obtain ⟨hx, hy⟩ := hc.mem_of_hop hxy
  obtain ⟨z, hyz⟩ := hc.exists_hop_from hy
  exact h.returns_iff (hr x hx) (hc.arrow hxy) (hc.arrow hyz)

/-- What dominates the block before it on a closed path dominates the whole path. -/
theorem dominates_of_hop (hxy : Hop r x y) (hdom : f.Dominates y x) : ∀ z ∈ r, f.Dominates y z := by
  intro z hz
  rcases hc.exists_route_to_hop hxy hz with rfl | ⟨r', hr', hy⟩
  · exact fun _ hroute => hroute.mem_last
  · obtain ⟨w, hzw⟩ := hc.exists_hop_from hz
    obtain ⟨hx, -⟩ := hc.mem_of_hop hxy
    rw [← h.mem_dominators_iff (h.exists_route_of_arrow (hr z hz) (hc.arrow hzw))]
    rw [← h.mem_dominators_iff (h.exists_route_of_arrow (hr x hx) (hc.arrow hxy))] at hdom
    exact h.dominator_of_not_mem hr' (hr z hz) hdom hy

/-- **Which closed paths have an edge that returns.** -/
theorem exists_returns_iff : (∃ x y, Hop r x y ∧ f.Returns x y) ↔ f.Shown r := by
  constructor
  · rintro ⟨x, y, hxy, hreturns⟩
    rcases (h.hop_returns_iff hc hr hxy).mp hreturns with hdom | hback
    · exact .inl ⟨y, (hc.mem_of_hop hxy).2, h.dominates_of_hop hc hr hxy hdom⟩
    · exact .inr ⟨x, y, hxy, hback⟩
  · rintro (⟨y, hy, hdom⟩ | ⟨x, y, hxy, hback⟩)
    · obtain ⟨x, hxy⟩ := hc.exists_hop_to hy
      exact ⟨x, y, hxy, (h.hop_returns_iff hc hr hxy).mpr (.inl (hdom x (hc.mem_of_hop hxy).1))⟩
    · exact ⟨x, y, hxy, (h.hop_returns_iff hc hr hxy).mpr (.inr hback)⟩

/-- **Which closed paths have a loop**: the loop of an edge that returns holds the whole path. -/
theorem exists_loop_iff : (∃ l ∈ f.loops, ∃ x ∈ l.latches, Hop r x l.header ∧ ∀ z ∈ r, z ∈ l.body) ↔
    ∃ x y, Hop r x y ∧ f.Returns x y := by
  constructor
  · rintro ⟨l, hl, x, hx, hhop, -⟩
    exact ⟨x, l.header, hhop, (((h.natural hl).latches x).mp hx).2.2⟩
  · rintro ⟨x, y, hxy, hreturns⟩
    have hx := hr x (hc.mem_of_hop hxy).1
    obtain ⟨l, hl, rfl⟩ := h.exists_loop hx (hc.arrow hxy) hreturns
    have hlatch := ((h.natural hl).latches x).mpr ⟨hx, hc.arrow hxy, hreturns⟩
    refine ⟨l, hl, x, hlatch, hxy, fun z hz => ?_⟩
    have hl := h.loopAt?_of_mem hl
    rcases hc.exists_route_to_hop hxy hz with rfl | ⟨r', hr', hheader⟩
    · exact h.header_mem hl
    · exact h.mem_body_of_route hl hr' (hr z hz) (h.latch_mem hl hlatch) hheader

end Circuits

/-- **When the other edges have no closed path.** -/
theorem acyclic_iff (h : f.Analysed) :
    (∀ a b r, a ∈ f.reachable → Route (fun i j => j ∈ f.onward i) a b r → a ∉ f.onward b) ↔
      ∀ r, Circuit f.graph.Arrow r → (∀ x ∈ r, x ∈ f.reachable) → f.Shown r := by
  constructor
  · intro hacyclic r hc hr
    rw [← h.exists_returns_iff hc hr]
    by_contra hnone
    push Not at hnone
    obtain ⟨a, b, hroute, hba, -⟩ := hc.mono (S := fun i j => j ∈ f.onward i) fun x y hxy =>
      h.mem_onward_iff.mpr ⟨hc.arrow hxy, hnone x y hxy⟩
    exact hacyclic a b r (hr a hroute.mem_first) hroute hba
  · intro hshown a b r ha hroute hba
    have hreach := hroute.forall_mem (fun _ _ hx hxy => h.onward_mem hx hxy) ha
    obtain ⟨r', hc, hsub⟩ : ∃ r', Circuit (fun i j => j ∈ f.onward i) r' ∧ ∀ x ∈ r', x ∈ r := by
      rcases hroute.nodup_or_circuit with hnodup | hfound
      · exact ⟨r, ⟨a, b, hroute, hba, hnodup⟩, fun x hx => hx⟩
      · exact hfound
    have hr' : ∀ x ∈ r', x ∈ f.reachable := fun x hx => hreach x (hsub x hx)
    have harrow : Circuit f.graph.Arrow r' :=
      hc.mono fun x y hxy => (h.mem_onward_iff.mp (hc.arrow hxy)).1
    obtain ⟨x, y, hxy, hreturns⟩ := (h.exists_returns_iff harrow hr').mpr (hshown r' harrow hr')
    exact (h.mem_onward_iff.mp (hc.arrow hxy)).2 hreturns

end Analysed

/-! ## Decoded functions -/

/-- **Closed paths.** A function that was decoded to its end has a graph, whether the length of its
code is given or not. On every closed path of reachable blocks some edge leads to an earlier block.
An edge of the path returns if and only if one of its blocks dominates it or one of its edges leads
to an earlier block that its source does not dominate; just then a loop with this edge into its
header holds the whole path. Without the edges that return there is no closed path if and only if
this is so of all of them. -/
theorem circuits_exact {d : Dialect} (hd : d.Registered) {payload : List UInt8} {fn : Function}
    (hfn : fn ∈ (Script.decode d payload).functions) (hcomplete : fn.complete)
    (length : Option Nat) (hlength : ∀ n ∈ length, n = fn.codeLength) :
    ∃ f, build fn.instructions length = .ok f ∧
      (∀ r, Circuit f.graph.Arrow r → (∀ x ∈ r, x ∈ f.reachable) →
        (∃ x y, Hop r x y ∧ (f.block y).start ≤ (f.block x).start) ∧
        ((∃ x y, Hop r x y ∧ f.Returns x y) ↔ f.Shown r) ∧
        ((∃ l ∈ f.loops, ∃ x ∈ l.latches, Hop r x l.header ∧ ∀ z ∈ r, z ∈ l.body) ↔
          f.Shown r)) ∧
      ((∀ a b r, a ∈ f.reachable → Route (fun i j => j ∈ f.onward i) a b r → a ∉ f.onward b) ↔
        ∀ r, Circuit f.graph.Arrow r → (∀ x ∈ r, x ∈ f.reachable) → f.Shown r) := by
  obtain ⟨f, hf⟩ := exists_build_of_complete hd hfn hcomplete hlength
  have h := analysed_of_build hf
  refine ⟨f, hf, fun r hc hr => ?_, h.acyclic_iff⟩
  have hreturns := h.exists_returns_iff hc hr
  exact ⟨hc.exists_hop_le fun x => (f.block x).start, hreturns,
    (h.exists_loop_iff hc hr).trans hreturns⟩

/-- A test that enters a ring of three blocks at two of them: from the first of these the path goes
back to an earlier block, which the ring is not entered at. -/
def hiddenRing : List UInt8 :=
  [1, 0, 0, 0, 0, 0, 0, 0, 0, 0, 0, 4, 4, 0, 0, 0, 0, 12, 0, 0, 0, 4, 40, 9, 0, 39, 8, 0, 0, 0, 39,
    7, 0]

/-- The ring has forward and crossing edges only, and there is no loop. -/
theorem exists_build_hiddenRing : ∃ fn ∈ (Script.decode Registry.oldest hiddenRing).functions,
    fn.complete ∧ ∃ f, build fn.instructions (some fn.codeLength) = .ok f ∧ f.loops = [] ∧
      ∀ e ∈ [(4, 2), (2, 3), (3, 4)], e.1 ∈ f.reachable ∧ (f.ending e.1).successors = [e.2] ∧
        (f.kind e.1 e.2 = .forward ∨ f.kind e.1 e.2 = .cross) := by
  have hfound : ((Script.decode Registry.oldest hiddenRing).functions.any fun fn => fn.complete &&
      ((build fn.instructions (some fn.codeLength)).toOption.any fun f => decide
        (f.loops = [] ∧ ∀ e ∈ ([(4, 2), (2, 3), (3, 4)] : List (Nat × Nat)), e.1 ∈ f.reachable ∧
          (f.ending e.1).successors = [e.2] ∧
            (f.kind e.1 e.2 = .forward ∨ f.kind e.1 e.2 = .cross)))) = true := by
    decide +kernel
  obtain ⟨fn, hfn, hfound⟩ := List.any_eq_true.mp hfound
  obtain ⟨hcomplete, hfound⟩ := Bool.and_eq_true_iff.mp hfound
  obtain ⟨f, hf, hfound⟩ := (Option.any_eq_true _ _).mp hfound
  exact ⟨fn, hfn, hcomplete, f, Outcome.toOption_eq_some.mp hf, of_decide_eq_true hfound⟩

/-- The ring is a closed path without an edge that returns. -/
theorem exists_circuit_hiddenRing : ∃ fn ∈ (Script.decode Registry.oldest hiddenRing).functions,
    fn.complete ∧ ∃ f, build fn.instructions (some fn.codeLength) = .ok f ∧ f.loops = [] ∧
      Circuit f.graph.Arrow [4, 2, 3] ∧ (∀ x ∈ [4, 2, 3], x ∈ f.reachable) ∧
      ∀ x y, Hop [4, 2, 3] x y → ¬ f.Returns x y := by
  obtain ⟨fn, hfn, hcomplete, f, hf, hloops, hedges⟩ := exists_build_hiddenRing
  have h := analysed_of_build hf
  have harrow : ∀ e ∈ [(4, 2), (2, 3), (3, 4)], f.graph.Arrow e.1 e.2 := fun e he =>
    h.arrow_iff.mpr ((hedges e he).2.1 ▸ List.mem_singleton_self e.2)
  refine ⟨fn, hfn, hcomplete, f, hf, hloops, ⟨4, 3, ?_, harrow (3, 4) (by decide), by decide⟩, ?_, ?_⟩
  · exact .step (harrow (4, 2) (by decide)) (.step (harrow (2, 3) (by decide)) (.stay 3))
  · intro x hx
    obtain ⟨e, he, rfl⟩ : ∃ e ∈ [(4, 2), (2, 3), (3, 4)], e.1 = x := by
      simpa [eq_comm] using hx
    exact (hedges e he).1
  · intro x y hxy
    have he : (x, y) ∈ [(4, 2), (2, 3), (3, 4)] := by
      simpa [Hop, List.infix_cons_iff] using hxy
    unfold Returns
    rcases (hedges _ he).2.2 with hkind | hkind <;> rw [hkind] <;> decide

/-- The ring is not shown. -/
theorem circuits_exact_hiddenRing :
    ∃ fn ∈ (Script.decode Registry.oldest hiddenRing).functions, fn.complete ∧
      ∃ f, build fn.instructions (some fn.codeLength) = .ok f ∧
        Circuit f.graph.Arrow [4, 2, 3] ∧ ¬ f.Shown [4, 2, 3] ∧
        ∃ x y, Hop [4, 2, 3] x y ∧ (f.block y).start ≤ (f.block x).start := by
  obtain ⟨fn, hfn, hcomplete, f, hf, -, hc, hr, hnone⟩ := exists_circuit_hiddenRing
  obtain ⟨f', hf', hexact, -⟩ := circuits_exact (Dialect.registered_of_mem Registry.oldest_mem) hfn
    hcomplete (some fn.codeLength) fun n hn => (Option.some.inj hn).symm
  obtain rfl : f' = f := Except.ok.inj (hf'.symm.trans hf)
  obtain ⟨hback, hshown, -⟩ := hexact _ hc hr
  refine ⟨fn, hfn, hcomplete, f', hf, hc, fun hyes => ?_, hback⟩
  obtain ⟨x, y, hxy, hreturns⟩ := hshown.mpr hyes
  exact hnone x y hxy hreturns

/-- A closed path of reachable blocks need not have an edge that returns, nor a loop. -/
theorem not_forall_circuit_returns :
    ¬ ∀ d ∈ Registry.standard.dialects, ∀ payload, ∀ fn ∈ (Script.decode d payload).functions,
      fn.complete → ∀ f, build fn.instructions (some fn.codeLength) = .ok f →
      ∀ r, Circuit f.graph.Arrow r → (∀ x ∈ r, x ∈ f.reachable) →
        (∃ x y, Hop r x y ∧ f.Returns x y) ∧ ∃ l ∈ f.loops, ∀ x ∈ r, x ∈ l.body := by
  intro hall
  obtain ⟨fn, hfn, hcomplete, f, hf, -, hc, hr, hnone⟩ := exists_circuit_hiddenRing
  obtain ⟨⟨x, y, hxy, hreturns⟩, -⟩ :=
    hall _ Registry.oldest_mem hiddenRing fn hfn hcomplete f hf _ hc hr
  exact hnone x y hxy hreturns

end Flow

end Unscript
