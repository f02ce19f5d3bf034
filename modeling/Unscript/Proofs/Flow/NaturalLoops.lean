import Unscript.Proofs.Flow.Dominators

/-!
# What the loops of a graph are

A loop is described by paths: its body is the header with every reachable block from which a path
leads to a latch without passing the header. Whatever enters the body enters it at the header, and
whatever leaves it goes to an exit. This holds of every loop that is found, reducible or not; a loop
is reducible just when its header dominates its body.

* `Flow.Dominates`: a block lies on every path from the entry to another.
* `Flow.Returns`: an edge leads back to a dominator or to an earlier block.
* `Flow.Natural`: what a loop is, in terms of paths.

Results:
* `Flow.Analysed.loopAt?_of_mem`: every loop is the one with its header.
* `Flow.Analysed.mem_body_of_route`: what reaches a block of the body without passing the header is
  in the body.
* `Flow.Analysed.natural`, `Flow.Analysed.reducible_iff`: what the loops of a graph are.
* `Flow.loops_natural`: the loops of a function that was decoded to its end.
-/

namespace Unscript.Flow

open Unscript.Graph (EdgeKind entryOf)

/-- A block lies on every path from the entry to another. -/
def Dominates (f : Flow) (a b : Nat) : Prop :=
  ∀ r, Route f.graph.Arrow 0 b r → a ∈ r

/-- An edge returns when it leads back to a dominator or to an earlier block. -/
def Returns (f : Flow) (a b : Nat) : Prop :=
  f.kind a b = .back ∨ f.kind a b = .retreating

/-- **What a loop is**, in terms of paths. -/
structure Natural (f : Flow) (l : Loop) : Prop where
  /-- The latches are where the edges come from that return to the header. -/
  latches : ∀ x, x ∈ l.latches ↔
    x ∈ f.reachable ∧ f.graph.Arrow x l.header ∧ f.Returns x l.header
  reached : ∀ x ∈ l.body, ∃ r, Route f.graph.Arrow 0 x r
  /-- The body is the header and what reaches a latch without passing the header. -/
  body : ∀ x, x ∈ l.body ↔ x = l.header ∨
    x ∈ f.reachable ∧ ∃ t ∈ l.latches, ∃ r, Route f.graph.Arrow x t r ∧ l.header ∉ r
  /-- Every block of the body reaches the header inside the body. -/
  inside : ∀ x ∈ l.body, ∃ r, Route f.graph.Arrow x l.header r ∧ ∀ y ∈ r, y ∈ l.body
  /-- The body is entered at the header only. -/
  entered : ∀ y ∈ f.reachable, y ∉ l.body → ∀ x ∈ l.body, f.graph.Arrow y x → x = l.header
  exits : ∀ x, x ∈ l.exits ↔ x ∉ l.body ∧ ∃ c ∈ l.body, f.graph.Arrow c x

variable {f : Flow} {a b t x y : Nat} {l : Loop} {r : List Nat} {k : EdgeKind}

namespace Analysed

/-! ## Dominators -/

/-- The dominators of a block that a path leads to lie on all such paths. -/
theorem mem_dominators_iff (h : f.Analysed) (hx : ∃ r, Route f.graph.Arrow 0 x r) :
    y ∈ entryOf f.dominators x ↔ f.Dominates y x :=
  ⟨fun hy _ hr => h.mem_route_of_dominator hr hy, h.dominator_of_routes hx⟩

/-- The virtual block leads nowhere. -/
theorem ne_exit_of_arrow (h : f.Analysed) (hxy : f.graph.Arrow x y) : x ≠ f.exit := by
  rintro rfl
  have hexit : f.ending f.exit = .exit := h.proper.ending_exit
  have hnext := h.arrow_iff.mp hxy
  rw [hexit] at hnext
  cases hnext

theorem exists_route_of_arrow (h : f.Analysed) (hx : x ∈ f.reachable)
    (hxy : f.graph.Arrow x y) : ∃ r, Route f.graph.Arrow 0 x r :=
  h.exists_route hx (h.ne_exit_of_arrow hxy)

/-! ## Edges that return -/

theorem kind_eq_back (hx : x ∈ f.reachable) :
    f.kind x y = .back ↔ y ∈ entryOf f.dominators x := by
  unfold Flow.kind Graph.edgeKind
  rw [if_neg (not_not.mpr hx)]
  split_ifs with hdom <;> simp [hdom]

theorem mem_returningEdges (h : f.Analysed) :
    (x, y, k) ∈ returningEdges f.graph f.reachable f.dominators ↔
      x ∈ f.reachable ∧ f.graph.Arrow x y ∧ f.Returns x y ∧ k = f.kind x y := by
  constructor
  · intro he
    obtain ⟨hx, hy⟩ := mem_of_returning he
    obtain ⟨a, -, he⟩ := List.mem_flatMap.mp he
    obtain ⟨b, -, he⟩ := List.mem_filterMap.mp he
    split at he
    · rename_i hkind
      cases he
      exact ⟨hx, h.arrow_iff.mpr hy, .inl hkind, hkind.symm⟩
    · rename_i hkind
      cases he
      exact ⟨hx, h.arrow_iff.mpr hy, .inr hkind, hkind.symm⟩
    · cases he
  · rintro ⟨hx, hxy, hreturns, rfl⟩
    refine List.mem_flatMap.mpr ⟨x, List.mem_range.mpr (h.lt_size hx),
      List.mem_filterMap.mpr ⟨y, h.arrow_iff.mp hxy, ?_⟩⟩
    unfold Returns Flow.kind at hreturns
    unfold Flow.kind
    rcases hreturns with hkind | hkind <;> rw [hkind]

/-! ## Loops -/

theorem loops_eq (h : f.Analysed) :
    f.loops = loopsOf f.graph f.reachable f.dominators f.preds := by
  rw [h.eq]
  rfl

/-- Every loop is the one with its header. -/
theorem loopAt?_of_mem (h : f.Analysed) (hl : l ∈ f.loops) : f.loopAt? l.header = some l := by
  have hmade : ∀ m ∈ f.loops, m = loopOf f.graph f.reachable f.dominators f.preds m.header
      ((returningEdges f.graph f.reachable f.dominators).filter (·.2.1 == m.header)) := by
    intro m hm
    rw [h.loops_eq, loopsOf, List.mem_map] at hm
    obtain ⟨header, -, rfl⟩ := hm
    rfl
  cases hfound : f.loopAt? l.header with
  | none => exact absurd (beq_self_eq_true _) (List.find?_eq_none.mp hfound l hl)
  | some m => rw [hmade m (List.mem_of_find?_eq_some hfound), loopAt?_header hfound, ← hmade l hl]

/-- An edge that returns makes a loop. -/
theorem exists_loop (h : f.Analysed) (hx : x ∈ f.reachable) (hxy : f.graph.Arrow x y)
    (hreturns : f.Returns x y) : ∃ l ∈ f.loops, l.header = y := by
  have he := h.mem_returningEdges.mpr ⟨hx, hxy, hreturns, rfl⟩
  have hheader : y ∈ BlockSet.ofList
      ((returningEdges f.graph f.reachable f.dominators).map (·.2.1)) :=
    BlockSet.mem_ofList.mpr (List.mem_map.mpr ⟨_, he, rfl⟩)
  rw [h.loops_eq]
  exact ⟨_, List.mem_map.mpr ⟨y, BlockSet.mem_toList.mpr hheader, rfl⟩, rfl⟩

section Parts

variable (h : f.Analysed) (hl : f.loopAt? b = some l)

include h hl

theorem mem_latches_iff :
    x ∈ l.latches ↔ x ∈ f.reachable ∧ f.graph.Arrow x b ∧ f.Returns x b := by
  obtain ⟨-, rfl⟩ := h.loop_eq_filter hl
  rw [mem_loopOf_latches]
  constructor
  · rintro ⟨⟨x, y, k⟩, he, rfl⟩
    obtain ⟨hreturning, hy⟩ := List.mem_filter.mp he
    obtain rfl : y = b := eq_of_beq hy
    obtain ⟨hx, hxy, hreturns, -⟩ := h.mem_returningEdges.mp hreturning
    exact ⟨hx, hxy, hreturns⟩
  · rintro ⟨hx, hxb, hreturns⟩
    have he := h.mem_returningEdges.mpr ⟨hx, hxb, hreturns, rfl⟩
    exact ⟨_, List.mem_filter.mpr ⟨he, beq_self_eq_true b⟩, rfl⟩

theorem exists_latch : ∃ t, t ∈ l.latches := by
  obtain ⟨edges, -, hne, rfl⟩ := h.loop_eq hl
  obtain ⟨e, he⟩ := List.exists_mem_of_ne_nil _ hne
  exact ⟨e.1, mem_loopOf_latches.mpr ⟨e, he, rfl⟩⟩

/-- A path from the entry leads to every block of a loop. -/
theorem exists_route_of_mem_body (hx : x ∈ l.body) : ∃ r, Route f.graph.Arrow 0 x r := by
  by_cases hxb : x = b
  · obtain ⟨t, ht⟩ := h.exists_latch hl
    obtain ⟨hreach, htb, -⟩ := (h.mem_latches_iff hl).mp ht
    obtain ⟨r, hr⟩ := h.exists_route_of_arrow hreach htb
    exact ⟨_, hxb ▸ hr.concat htb⟩
  · exact h.exists_route (h.body_mem hl hx) (h.ne_exit_of_mem hl hx hxb)

/-- What reaches a block of the body without passing the header is in the body. -/
theorem mem_body_of_route (hr : Route f.graph.Arrow x t r) (hx : x ∈ f.reachable) (ht : t ∈ l.body)
    (hb : b ∉ r) : x ∈ l.body := by
  induction hr with
  | stay => exact ht
  | @step x y t r hxy hr ih =>
    have hnext := h.arrow_iff.mp hxy
    have hbr : b ∉ r := fun hmem => hb (List.mem_cons_of_mem _ hmem)
    have hy := ih (h.next_mem hx hnext) ht hbr
    exact h.pred_mem_body hl hy (fun heq => hbr (heq ▸ hr.mem_first)) hx hnext

theorem mem_body_iff : x ∈ l.body ↔ x = b ∨
    x ∈ f.reachable ∧ ∃ t ∈ l.latches, ∃ r, Route f.graph.Arrow x t r ∧ b ∉ r := by
  constructor
  · refine h.body_induction hl (P := fun x => x = b ∨
      x ∈ f.reachable ∧ ∃ t ∈ l.latches, ∃ r, Route f.graph.Arrow x t r ∧ b ∉ r) (.inl rfl) ?_ ?_ x
    · intro t ht
      by_cases htb : t = b
      · exact .inl htb
      · refine .inr ⟨h.body_mem hl (h.latch_mem hl ht), t, ht, [t], .stay t, ?_⟩
        exact fun hmem => htb (List.mem_singleton.mp hmem).symm
    · intro x _ hxb hpath y hy hnext
      by_cases hyb : y = b
      · exact .inl hyb
      · obtain ⟨-, t, ht, r, hr, hbr⟩ := hpath.resolve_left hxb
        refine .inr ⟨hy, t, ht, y :: r, .step (h.arrow_iff.mpr hnext) hr, fun hmem => ?_⟩
        exact (List.mem_cons.mp hmem).elim (fun heq => hyb heq.symm) hbr
  · rintro (rfl | ⟨hx, t, ht, r, hr, hb⟩)
    · exact h.header_mem hl
    · exact h.mem_body_of_route hl hr hx (h.latch_mem hl ht) hb

/-- Every block of the body reaches the header inside the body. -/
theorem exists_route_inside :
    ∀ x ∈ l.body, ∃ r, Route f.graph.Arrow x b r ∧ ∀ y ∈ r, y ∈ l.body := by
  have hheader : ∀ y ∈ [b], y ∈ l.body :=
    fun y hy => List.mem_singleton.mp hy ▸ h.header_mem hl
  refine h.body_induction hl ⟨_, .stay b, hheader⟩ ?_ ?_
  · intro t ht
    obtain ⟨-, htb, -⟩ := (h.mem_latches_iff hl).mp ht
    exact ⟨_, .step htb (.stay b), List.forall_mem_cons.mpr ⟨h.latch_mem hl ht, hheader⟩⟩
  · rintro x hx hxb ⟨r, hr, hinside⟩ y hy hnext
    have hybody := h.pred_mem_body hl hx hxb hy hnext
    exact ⟨_, .step (h.arrow_iff.mpr hnext) hr, List.forall_mem_cons.mpr ⟨hybody, hinside⟩⟩

theorem mem_exits_iff : x ∈ l.exits ↔ x ∉ l.body ∧ ∃ c ∈ l.body, f.graph.Arrow c x := by
  obtain ⟨edges, -, -, rfl⟩ := h.loop_eq hl
  rw [mem_loopOf_exits, and_comm]
  simp only [h.arrow_iff, Flow.ending, Flow.block, Graph.successors]

end Parts

/-- **What the loops of a graph are.** -/
theorem natural (h : f.Analysed) (hl : l ∈ f.loops) : f.Natural l := by
  have hl := h.loopAt?_of_mem hl
  exact {
    latches := fun _ => h.mem_latches_iff hl
    reached := fun _ => h.exists_route_of_mem_body hl
    body := fun _ => h.mem_body_iff hl
    inside := h.exists_route_inside hl
    entered := fun y hy hout x hx hyx => by
      by_contra hne
      exact hout (h.pred_mem_body hl hx hne hy (h.arrow_iff.mp hyx))
    exits := fun _ => h.mem_exits_iff hl }

/-- There is a loop for each block that an edge returns to. -/
theorem exists_header_iff (h : f.Analysed) :
    (∃ l ∈ f.loops, l.header = a) ↔
      ∃ x ∈ f.reachable, f.graph.Arrow x a ∧ f.Returns x a := by
  constructor
  · rintro ⟨l, hl, rfl⟩
    obtain ⟨t, ht⟩ := h.exists_latch (h.loopAt?_of_mem hl)
    exact ⟨t, ((h.natural hl).latches t).mp ht⟩
  · rintro ⟨x, hx, hxa, hreturns⟩
    exact h.exists_loop hx hxa hreturns

/-- **A loop is reducible** when its header dominates its body. -/
theorem reducible_iff (h : f.Analysed) (hl : l ∈ f.loops) :
    l.reducible = true ↔ ∀ x ∈ l.body, f.Dominates l.header x := by
  have hl := h.loopAt?_of_mem hl
  constructor
  · intro hr x hx
    exact (h.mem_dominators_iff (h.exists_route_of_mem_body hl hx)).mp (h.reducible_eq _ l hl hr x hx)
  · intro hall
    have hdom : ∀ x ∈ l.body, l.header ∈ entryOf f.dominators x := fun x hx =>
      (h.mem_dominators_iff (h.exists_route_of_mem_body hl hx)).mpr (hall x hx)
    have hlatches : ∀ x ∈ l.latches, f.kind x l.header = .back := fun x hx =>
      (kind_eq_back (h.body_mem hl (h.latch_mem hl hx))).mpr (hdom x (h.latch_mem hl hx))
    obtain ⟨-, heq⟩ := h.loop_eq_filter hl
    generalize l.header = b at *
    subst heq
    refine Bool.and_eq_true_iff.mpr ⟨List.all_eq_true.mpr ?_, List.all_eq_true.mpr ?_⟩
    · rintro ⟨x, y, k⟩ he
      have hx := hlatches x (mem_loopOf_latches.mpr ⟨_, he, rfl⟩)
      obtain ⟨hreturning, hy⟩ := List.mem_filter.mp he
      obtain rfl : y = b := eq_of_beq hy
      obtain ⟨-, -, -, rfl⟩ := h.mem_returningEdges.mp hreturning
      exact beq_iff_eq.mpr hx
    · exact fun x hx => hdom x (BlockSet.mem_toList.mp hx)

end Analysed

/-! ## Decoded functions -/

/-- **Loops.** A function that was decoded to its end has a graph, whether the length of its code is
given or not. It has one loop for each block that an edge returns to, and the loop is what the paths
of the graph make it: the body is the header with all reachable blocks that reach a latch without
passing the header, each of which returns to the header inside the body; it is entered at the header
only, and the exits are what it leads to. The loop is reducible if and only if every path from the
entry to its body passes the header. -/
theorem loops_natural {d : Dialect} (hd : d.Registered) {payload : List UInt8} {fn : Function}
    (hfn : fn ∈ (Script.decode d payload).functions) (hcomplete : fn.complete)
    (length : Option Nat) (hlength : ∀ n ∈ length, n = fn.codeLength) :
    ∃ f, build fn.instructions length = .ok f ∧
      (∀ a, (∃ l ∈ f.loops, l.header = a) ↔
        ∃ x ∈ f.reachable, f.graph.Arrow x a ∧ f.Returns x a) ∧
      (∀ l ∈ f.loops, f.loopAt? l.header = some l) ∧
      ∀ l ∈ f.loops, f.Natural l ∧
        (l.reducible = true ↔ ∀ x ∈ l.body, f.Dominates l.header x) := by
  obtain ⟨f, hf⟩ := exists_build_of_complete hd hfn hcomplete hlength
  have h := analysed_of_build hf
  exact ⟨f, hf, fun a => h.exists_header_iff, fun l hl => h.loopAt?_of_mem hl,
    fun l hl => ⟨h.natural hl, h.reducible_iff hl⟩⟩

/-- The iteration with a conditional in its body is a reducible loop of three blocks. -/
theorem loops_natural_iteration :
    ∃ fn ∈ (Script.decode Registry.oldest [1, 0, 0, 0, 0, 0, 0, 0, 0, 0, 0, 4, 4, 0, 0, 0, 0, 21, 0,
        0, 0, 2, 0, 42, 1, 2, 21, 0, 2, 3, 41, 16, 0, 2, 2, 3, 3, 43, 1, 2, 7, 0]).functions,
      fn.complete ∧ ∃ f, build fn.instructions (some fn.codeLength) = .ok f ∧
        ∃ l ∈ f.loops, (l.header = 1 ∧ l.body.toList = [1, 2, 3] ∧ l.reducible = true) ∧
          f.Natural l ∧ ∀ x ∈ l.body, f.Dominates 1 x := by
  have hfound : ((Script.decode Registry.oldest [1, 0, 0, 0, 0, 0, 0, 0, 0, 0, 0, 4, 4, 0, 0, 0, 0,
      21, 0, 0, 0, 2, 0, 42, 1, 2, 21, 0, 2, 3, 41, 16, 0, 2, 2, 3, 3, 43, 1, 2, 7, 0]).functions.any
      fun fn => fn.complete && ((build fn.instructions (some fn.codeLength)).toOption.any fun f =>
        f.loops.any fun l => decide (l.header = 1 ∧ l.body.toList = [1, 2, 3] ∧
          l.reducible = true))) = true := by
    decide +kernel
  obtain ⟨fn, hfn, hfound⟩ := List.any_eq_true.mp hfound
  obtain ⟨hcomplete, hfound⟩ := Bool.and_eq_true_iff.mp hfound
  obtain ⟨f, hf, hfound⟩ := (Option.any_eq_true _ _).mp hfound
  obtain ⟨l, hl, hfound⟩ := List.any_eq_true.mp hfound
  obtain ⟨hheader, hbody, hreducible⟩ := of_decide_eq_true hfound
  obtain ⟨f', hf', -, -, hall⟩ := loops_natural (Dialect.registered_of_mem Registry.oldest_mem) hfn
    hcomplete (some fn.codeLength) fun n hn => (Option.some.inj hn).symm
  obtain rfl : f' = f := Except.ok.inj (hf'.symm.trans (Outcome.toOption_eq_some.mp hf))
  obtain ⟨hnatural, hdominates⟩ := hall l hl
  exact ⟨fn, hfn, hcomplete, f', hf', l, hl, ⟨hheader, hbody, hreducible⟩, hnatural,
    hheader ▸ hdominates.mp hreducible⟩

end Unscript.Flow
