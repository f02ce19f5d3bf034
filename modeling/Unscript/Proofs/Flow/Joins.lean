import Unscript.Proofs.Flow.Dominators

/-!
# Joins

The arms of a conditional meet at the nearest block that lies on every forward path from it. A
forward path takes no edge that returns, and ends where there is no other edge. All such blocks of
one start stand on each of its paths in the same order, so that one of them is the nearest, and its
own postdominators are the others.

The search takes a set that holds every reachable block for one that was never lowered, as that of a
block from which no forward path ends. So no join is found either where all reachable blocks lie on
every forward path.

* `Flow.onward`: the successors along edges that do not return.
* `Flow.ForwardPath`: a path along these edges to a block that has none.
* `Flow.OnEvery`: a block lies on every forward path from another.
* `Flow.Nearest`: the nearest of the blocks that lie on every forward path.

Results:
* `Flow.Analysed.mem_lowered`: the lowered sets hold the blocks that lie on every forward path.
* `Flow.Analysed.exists_nearest`, `Flow.Analysed.nearest_unique`: there is one nearest block.
* `Flow.join?_exact`: the joins of a function that was decoded to its end.
-/

namespace Unscript.Flow

open Unscript.Graph (entryOf)

/-! ## Forward paths -/

/-- The successors of a block along edges that do not return to an earlier one. -/
def onward (f : Flow) (id : Nat) : List Nat :=
  (f.graph.successors id).filter fun s =>
    match f.kind id s with
    | .back | .retreating => false
    | _ => true

/-- A path along edges that do not return, to a block that has no such edge. -/
def ForwardPath (f : Flow) (b : Nat) (r : List Nat) : Prop :=
  ∃ c, Route (fun i j => j ∈ f.onward i) b c r ∧ f.onward c = []

/-- A block that lies on every forward path from another. -/
def OnEvery (f : Flow) (b m : Nat) : Prop :=
  ∀ r, f.ForwardPath b r → m ∈ r

/-- **The nearest block** that lies on every forward path from another: on each of them no other
such block stands before it. -/
structure Nearest (f : Flow) (b m : Nat) : Prop where
  ne : m ≠ b
  common : f.OnEvery b m
  first : ∀ r, f.ForwardPath b r →
    ∃ front back, r = front ++ m :: back ∧ ∀ k ∈ front, k ≠ b → ¬ f.OnEvery b k

variable {f : Flow} {b c k m : Nat} {r front back : List Nat}

theorem mem_onward : c ∈ f.onward b ↔
    c ∈ f.graph.successors b ∧ f.kind b c ≠ .back ∧ f.kind b c ≠ .retreating := by
  unfold onward
  rw [List.mem_filter]
  cases f.kind b c <;> simp

/-- A forward path from a block goes on from each of its blocks. -/
theorem ForwardPath.split (h : f.ForwardPath b (front ++ c :: back)) :
    Route (fun i j => j ∈ f.onward i) b c (front ++ [c]) ∧ f.ForwardPath c (c :: back) := by
  obtain ⟨x, hr, hx⟩ := h
  obtain ⟨hfront, hback⟩ := hr.split
  exact ⟨hfront, x, hback, hx⟩

theorem ForwardPath.append (h : Route (fun i j => j ∈ f.onward i) b c (front ++ [c]))
    (hback : f.ForwardPath c r) : ∃ back, r = c :: back ∧ f.ForwardPath b (front ++ c :: back) := by
  obtain ⟨x, hr, hx⟩ := hback
  obtain ⟨back, rfl⟩ := hr.exists_cons
  exact ⟨back, rfl, x, h.append hr, hx⟩

theorem ForwardPath.of_mem (h : f.ForwardPath b r) (hc : c ∈ r) :
    ∃ r', f.ForwardPath c r' ∧ ∀ x ∈ r', x ∈ r := by
  obtain ⟨front, back, rfl⟩ := List.append_of_mem hc
  exact ⟨_, h.split.2, fun x hx => List.mem_append_right _ hx⟩

theorem OnEvery.trans (hbc : f.OnEvery b c) (hck : f.OnEvery c k) : f.OnEvery b k := by
  intro r hr
  obtain ⟨r', hr', hsub⟩ := hr.of_mem (hbc r hr)
  exact hsub k (hck r' hr')

/-- Of the blocks that lie on every forward path, the first on one path has the others on all of its
own. -/
theorem ForwardPath.onEvery_of_first (h : f.ForwardPath b (front ++ c :: back))
    (hfirst : ∀ k ∈ front, k ≠ b → ¬ f.OnEvery b k) (hk : k ≠ b) (hbk : f.OnEvery b k) :
    f.OnEvery c k := by
  intro r hr
  obtain ⟨back', rfl, hpath⟩ := ForwardPath.append h.split.1 hr
  exact (List.mem_append.mp (hbk _ hpath)).resolve_left fun hmem => hfirst k hmem hk hbk

theorem Nearest.onEvery (h : f.Nearest b m) (hr : f.ForwardPath b r) (hk : k ≠ b)
    (hbk : f.OnEvery b k) : f.OnEvery m k := by
  obtain ⟨front, back, rfl, hfirst⟩ := h.first r hr
  exact hr.onEvery_of_first hfirst hk hbk

/-- Some block that lies on every forward path is the first of them on a path. -/
theorem ForwardPath.exists_first (hm : m ≠ b) (hbm : f.OnEvery b m) (h : f.ForwardPath b r) :
    ∃ front c back, r = front ++ c :: back ∧ c ≠ b ∧ f.OnEvery b c ∧
      ∀ k ∈ front, k ≠ b → ¬ f.OnEvery b k := by
  have hfound (r : List Nat) (hr : m ∈ r) : ∃ front c back, r = front ++ c :: back ∧ c ≠ b ∧
      f.OnEvery b c ∧ ∀ k ∈ front, k ≠ b → ¬ f.OnEvery b k := by
    induction r with
    | nil => exact absurd hr List.not_mem_nil
    | cons x r ih =>
      by_cases hx : x ≠ b ∧ f.OnEvery b x
      · exact ⟨[], x, r, rfl, hx.1, hx.2, fun k hk => absurd hk List.not_mem_nil⟩
      · have hmr : m ∈ r :=
          (List.mem_cons.mp hr).resolve_left fun heq => hx (heq ▸ ⟨hm, hbm⟩)
        obtain ⟨front, c, back, rfl, hc, hbc, hfirst⟩ := ih hmr
        exact ⟨x :: front, c, back, rfl, hc, hbc,
          List.forall_mem_cons.mpr ⟨fun hxb hbx => hx ⟨hxb, hbx⟩, hfirst⟩⟩
  exact hfound r (hbm r h)

namespace Analysed

/-! ## The lowered sets -/

theorem forwardPostdominators_onward (h : f.Analysed) :
    f.forwardPostdominators = f.graph.postdominators f.reachable f.onward := by
  have hsame (g : Graph) : (ofGraph g).forwardPostdominators =
      (ofGraph g).graph.postdominators (ofGraph g).reachable (ofGraph g).onward := rfl
  have hsame := hsame f.graph
  rwa [← h.eq] at hsame

theorem onward_lt (h : f.Analysed) : ∀ i, ∀ j ∈ f.onward i, j < f.graph.size := by
  intro i j hj
  have := h.proper.targets i j (mem_onward.mp hj).1
  rw [h.size_eq]
  exact Nat.lt_succ_of_le this

theorem onward_mem (h : f.Analysed) (hb : b ∈ f.reachable) (hc : c ∈ f.onward b) :
    c ∈ f.reachable :=
  h.next_mem hb (mem_onward.mp hc).1

theorem onward_exit (h : f.Analysed) : f.onward f.exit = [] := by
  have hexit : f.graph.successors f.exit = [] := congrArg Ending.successors h.proper.ending_exit
  unfold onward
  rw [hexit]
  rfl

/-- The blocks of a forward path are reachable. -/
theorem forwardPath_mem (h : f.Analysed) (hb : b ∈ f.reachable) (hr : f.ForwardPath b r) :
    ∀ x ∈ r, x ∈ f.reachable := by
  obtain ⟨c, hr, -⟩ := hr
  exact hr.forall_mem (fun _ _ ha hab => h.onward_mem ha hab) hb

theorem stops_iff (h : f.Analysed) (hb : b ∈ f.reachable) :
    f.graph.Stops f.reachable f.onward b ↔ f.onward b = [] := by
  constructor
  · rintro (rfl | hnot | hnil)
    · exact h.onward_exit
    · exact absurd hb hnot
    · exact hnil
  · exact fun hnil => .inr (.inr hnil)

theorem not_stops (h : f.Analysed) (hb : b ∈ f.reachable) (hc : c ∈ f.onward b) :
    ¬ f.graph.Stops f.reachable f.onward b := by
  intro hstop
  rw [(h.stops_iff hb).mp hstop] at hc
  cases hc

theorem halts_of_forwardPath (h : f.Analysed) (hb : b ∈ f.reachable) (hr : f.ForwardPath b r) :
    f.graph.Halts f.reachable f.onward b := by
  obtain ⟨x, hr, hx⟩ := hr
  induction hr with
  | stay => exact .stop ((h.stops_iff hb).mpr hx)
  | step hac _ ih => exact .step (h.not_stops hb hac) hac (ih (h.onward_mem hb hac) hx)

/-- A path stops without passing a block when a forward path does not hold it. -/
theorem evades_iff (h : f.Analysed) (hb : b ∈ f.reachable) :
    f.graph.Evades f.reachable f.onward m b ↔ ¬ f.OnEvery b m := by
  constructor
  · intro he
    suffices hpath : ∃ r, f.ForwardPath b r ∧ m ∉ r by
      obtain ⟨r, hr, hm⟩ := hpath
      exact fun hall => hm (hall r hr)
    induction he with
    | stop hne hstop =>
      refine ⟨_, ⟨_, .stay _, (h.stops_iff hb).mp hstop⟩, ?_⟩
      rwa [List.mem_singleton, eq_comm]
    | step hne _ hj _ ih =>
      obtain ⟨r, ⟨x, hr, hx⟩, hm⟩ := ih (h.onward_mem hb hj)
      refine ⟨_, ⟨x, .step hj hr, hx⟩, ?_⟩
      rw [List.mem_cons, not_or]
      exact ⟨Ne.symm hne, hm⟩
  · intro hnot
    unfold OnEvery at hnot
    push Not at hnot
    obtain ⟨r, ⟨x, hr, hx⟩, hm⟩ := hnot
    induction hr with
    | stay a =>
      exact .stop (fun heq => hm (List.mem_singleton.mpr heq.symm)) ((h.stops_iff hb).mpr hx)
    | @step a c x r hac hr ih =>
      rw [List.mem_cons, not_or] at hm
      obtain ⟨hma, hmr⟩ := hm
      exact .step (Ne.symm hma) (h.not_stops hb hac) hac (ih (h.onward_mem hb hac) hmr hx)

/-- **The lowered sets** hold the blocks that lie on every forward path. -/
theorem mem_lowered (h : f.Analysed) (hb : b ∈ f.reachable) :
    m ∈ entryOf (Graph.lowered f.graph f.reachable f.onward) b ↔
      m ∈ f.reachable ∧ f.OnEvery b m := by
  have hbound : ∀ i ∈ f.reachable, i < f.graph.size := fun i => h.lt_size
  have hiff (hm : m ∈ f.reachable) := Graph.mem_lowered_iff (m := m) hbound h.onward_lt
    (h.lt_size hb) hm
  constructor
  · intro hm
    have hreach : m ∈ f.reachable :=
      (Graph.within_lowered b m hm).elim id fun heq => heq ▸ hb
    refine ⟨hreach, ?_⟩
    have hevades := (hiff hreach).mp hm
    rw [h.evades_iff hb, not_not] at hevades
    exact hevades
  · rintro ⟨hreach, hall⟩
    refine (hiff hreach).mpr ?_
    rwa [h.evades_iff hb, not_not]

theorem lowered_eq_iff (h : f.Analysed) (hb : b ∈ f.reachable) :
    entryOf (Graph.lowered f.graph f.reachable f.onward) b = f.reachable ↔
      ∀ k ∈ f.reachable, f.OnEvery b k := by
  constructor
  · intro heq k hk
    rw [← heq] at hk
    exact ((h.mem_lowered hb).mp hk).2
  · intro hall
    exact BlockSet.ext fun k =>
      ⟨fun hk => ((h.mem_lowered hb).mp hk).1, fun hk => (h.mem_lowered hb).mpr ⟨hk, hall k hk⟩⟩

/-- The sets that are searched are the lowered ones, but for those that hold all reachable
blocks. -/
theorem entryOf_forwardPostdominators (h : f.Analysed) (hb : b ∈ f.reachable) :
    entryOf f.forwardPostdominators b =
      if entryOf (Graph.lowered f.graph f.reachable f.onward) b = f.reachable ∧ b ≠ f.exit then
        .single b
      else entryOf (Graph.lowered f.graph f.reachable f.onward) b := by
  rw [h.forwardPostdominators_onward, Graph.postdominators_eq, Graph.entryOf_tableOf,
    if_pos (h.lt_size hb)]
  rfl

/-! ## The nearest block -/

/-- Of two blocks with ends of paths behind them, one does not lie on every forward path from the
other. -/
theorem onEvery_antisymm (h : f.Analysed) (hb : b ∈ f.reachable) (hr : f.ForwardPath b r)
    (hbc : f.OnEvery b c) (hcb : f.OnEvery c b) : b = c := by
  by_contra hne
  have hc : c ∈ f.reachable := h.forwardPath_mem hb hr c (hbc r hr)
  rcases (h.halts_of_forwardPath hb hr).evades_or hne with he | he | ⟨-, he⟩
  · exact (h.evades_iff hb).mp he hbc
  · exact (h.evades_iff hc).mp he hcb
  · exact he.ne rfl

/-- **There is a nearest block** on the forward paths from another, if any block lies on all of
them and there are any. -/
theorem exists_nearest (h : f.Analysed) (hb : b ∈ f.reachable) (hr : f.ForwardPath b r)
    (hm : m ≠ b) (hbm : f.OnEvery b m) : ∃ c, f.Nearest b c := by
  obtain ⟨front, c, back, rfl, hc, hbc, hfirst⟩ := hr.exists_first hm hbm
  refine ⟨c, hc, hbc, fun r' hr' => ?_⟩
  obtain ⟨front', c', back', rfl, hc', hbc', hfirst'⟩ := hr'.exists_first hm hbm
  have hreach : c ∈ f.reachable := h.forwardPath_mem hb hr c (hbc _ hr)
  have hsame : c = c' := h.onEvery_antisymm hreach hr.split.2
    (hr.onEvery_of_first hfirst hc' hbc') (hr'.onEvery_of_first hfirst' hc hbc)
  exact ⟨front', back', by rw [hsame], hfirst'⟩

theorem nearest_unique (h : f.Analysed) (hb : b ∈ f.reachable) (hr : f.ForwardPath b r)
    (hc : f.Nearest b c) (hm : f.Nearest b m) : c = m := by
  have hreach : c ∈ f.reachable := h.forwardPath_mem hb hr c (hc.common _ hr)
  obtain ⟨r', hr', -⟩ := hr.of_mem (hc.common _ hr)
  exact h.onEvery_antisymm hreach hr' (hc.onEvery hr hm.ne hm.common)
    (hm.onEvery hr hc.ne hc.common)

/-! ## The search -/

/-- The strict postdominators that are searched, where a set was lowered: the other blocks on every
forward path. -/
theorem mem_strict (h : f.Analysed) (hb : b ∈ f.reachable)
    (hnot : ¬ ∀ k ∈ f.reachable, f.OnEvery b k) :
    k ∈ (entryOf f.forwardPostdominators b).diff (.single b) ↔
      (k ∈ f.reachable ∧ f.OnEvery b k) ∧ k ≠ b := by
  rw [h.entryOf_forwardPostdominators hb,
    if_neg fun hfull => hnot ((h.lowered_eq_iff hb).mp hfull.1), BlockSet.mem_diff,
    h.mem_lowered hb, BlockSet.mem_single]

theorem exists_forwardPath (hnot : ¬ ∀ k ∈ f.reachable, f.OnEvery b k) :
    ∃ r, f.ForwardPath b r := by
  by_contra hnone
  push Not at hnone
  exact hnot fun k _ r hr => absurd hr (hnone r)

/-- **The search** finds the nearest block: its own postdominators are the others. -/
theorem search_iff (h : f.Analysed) (hb : b ∈ f.reachable)
    (hnot : ¬ ∀ k ∈ f.reachable, f.OnEvery b k) :
    (m ∈ (entryOf f.forwardPostdominators b).diff (.single b) ∧
        entryOf f.forwardPostdominators m =
          (entryOf f.forwardPostdominators b).diff (.single b)) ↔ f.Nearest b m := by
  constructor
  · rintro ⟨hm, hsame⟩
    obtain ⟨⟨hreach, hbm⟩, hne⟩ := (h.mem_strict hb hnot).mp hm
    refine ⟨hne, hbm, fun r hr => ?_⟩
    -- The first of these blocks on a path is among the postdominators of the one that was found.
    obtain ⟨front, c, back, rfl, hc, hbc, hfirst⟩ := hr.exists_first hne hbm
    have hcreach : c ∈ f.reachable := h.forwardPath_mem hb hr c (hbc _ hr)
    have hcm : f.OnEvery c m := hr.onEvery_of_first hfirst hne hbm
    have hmem : c ∈ entryOf f.forwardPostdominators m := by
      rw [hsame]
      exact (h.mem_strict hb hnot).mpr ⟨⟨hcreach, hbc⟩, hc⟩
    have heq : c = m := by
      rw [h.entryOf_forwardPostdominators hreach] at hmem
      split at hmem
      · exact BlockSet.mem_single.mp hmem
      · exact h.onEvery_antisymm hcreach hr.split.2 hcm ((h.mem_lowered hreach).mp hmem).2
    exact ⟨front, back, by rw [heq], hfirst⟩
  · intro hnearest
    obtain ⟨r, hr⟩ := exists_forwardPath hnot
    have hreach : m ∈ f.reachable := h.forwardPath_mem hb hr m (hnearest.common r hr)
    have hback : ¬ f.OnEvery m b := fun hmb =>
      hnearest.ne (h.onEvery_antisymm hb hr hnearest.common hmb).symm
    refine ⟨(h.mem_strict hb hnot).mpr ⟨⟨hreach, hnearest.common⟩, hnearest.ne⟩, ?_⟩
    refine BlockSet.ext fun k => ?_
    rw [h.mem_strict hb hnot, h.entryOf_forwardPostdominators hreach,
      if_neg fun hfull => hback ((h.lowered_eq_iff hreach).mp hfull.1 b hb), h.mem_lowered hreach,
      and_assoc]
    refine and_congr_right fun hk => ⟨fun hmk => ?_, fun hbk => ?_⟩
    · exact ⟨hnearest.common.trans hmk, fun heq => hback (heq ▸ hmk)⟩
    · exact hnearest.onEvery hr hbk.2 hbk.1

theorem immediatePostdominator?_eq_some (h : f.Analysed) (hb : b ∈ f.reachable)
    (hnot : ¬ ∀ k ∈ f.reachable, f.OnEvery b k) :
    f.immediatePostdominator? b = some m ↔ f.Nearest b m := by
  have hfound {c : Nat} (hc : f.immediatePostdominator? b = some c) : f.Nearest b c := by
    have hsame := List.find?_some hc
    exact (h.search_iff hb hnot).mp
      ⟨BlockSet.mem_toList.mp (List.mem_of_find?_eq_some hc), eq_of_beq hsame⟩
  refine ⟨hfound, fun hnearest => ?_⟩
  obtain ⟨r, hr⟩ := exists_forwardPath hnot
  obtain ⟨hmem, hsame⟩ := (h.search_iff hb hnot).mpr hnearest
  cases hsearch : f.immediatePostdominator? b with
  | none =>
    have hmiss := List.find?_eq_none.mp hsearch m (BlockSet.mem_toList.mpr hmem)
    exact absurd (beq_iff_eq.mpr hsame) hmiss
  | some c => rw [h.nearest_unique hb hr (hfound hsearch) hnearest]

/-- Where all reachable blocks lie on every forward path, the search finds none. -/
theorem immediatePostdominator?_eq_none (h : f.Analysed) (hb : b ∈ f.reachable) (hexit : b ≠ f.exit)
    (hall : ∀ k ∈ f.reachable, f.OnEvery b k) : f.immediatePostdominator? b = none := by
  refine List.find?_eq_none.mpr fun c hc => ?_
  have hmem := BlockSet.mem_toList.mp hc
  rw [h.entryOf_forwardPostdominators hb, if_pos ⟨(h.lowered_eq_iff hb).mpr hall, hexit⟩,
    BlockSet.mem_diff] at hmem
  exact absurd hmem.1 hmem.2

/-- **The join** of a conditional is the nearest block that lies on every forward path from it, but
none is found where all reachable blocks do. -/
theorem join?_iff (h : f.Analysed) (hb : b ∈ f.reachable) {x y : Nat}
    (hcond : f.ending b = .cond x y) :
    (∀ m, f.join? b = some m ↔ f.Nearest b m ∧ ∃ k ∈ f.reachable, ¬ f.OnEvery b k) ∧
      (f.join? b = none ↔ (∀ m, m ≠ b → ¬ f.OnEvery b m) ∨ ∀ k ∈ f.reachable, f.OnEvery b k) := by
  have hexit : b ≠ f.exit := by
    rintro rfl
    have hend : f.ending f.exit = .exit := h.proper.ending_exit
    rw [hend] at hcond
    cases hcond
  have hjoin : f.join? b = f.immediatePostdominator? b := by
    unfold join?
    rw [hcond]
    exact if_pos hb
  rw [hjoin]
  by_cases hall : ∀ k ∈ f.reachable, f.OnEvery b k
  · rw [h.immediatePostdominator?_eq_none hb hexit hall]
    refine ⟨fun m => ⟨fun h => (nomatch h), fun ⟨_, k, hk, hnot⟩ => absurd (hall k hk) hnot⟩, ?_⟩
    exact ⟨fun _ => .inr hall, fun _ => rfl⟩
  · obtain ⟨r, hr⟩ := exists_forwardPath hall
    have hsome (m : Nat) := h.immediatePostdominator?_eq_some (m := m) hb hall
    refine ⟨fun m => ?_, ?_⟩
    · rw [hsome]
      push Not at hall
      exact (and_iff_left hall).symm
    · rw [or_iff_left hall, Option.eq_none_iff_forall_ne_some]
      constructor
      · intro hnone m hm hbm
        obtain ⟨c, hc⟩ := h.exists_nearest hb hr hm hbm
        exact hnone c ((hsome c).mpr hc)
      · exact fun hnone m hm => hnone m ((hsome m).mp hm).ne ((hsome m).mp hm).common

end Analysed

/-! ## Decoded functions -/

/-- **Joins.** A function that was decoded to its end has a graph, whether the length of its code is
given or not. The join of a reachable conditional is the nearest other block that lies on every
forward path from it. There is none if no other block lies on all of them, and besides in one case
only: every reachable block lies on all of them. That is so where no forward path ends, and where
the forward paths lead through the whole function. -/
theorem join?_exact {d : Dialect} (hd : d.Registered) {payload : List UInt8} {fn : Function}
    (hfn : fn ∈ (Script.decode d payload).functions) (hcomplete : fn.complete)
    (length : Option Nat) (hlength : ∀ n ∈ length, n = fn.codeLength) :
    ∃ f, build fn.instructions length = .ok f ∧
      ∀ b ∈ f.reachable, ∀ x y, f.ending b = .cond x y →
        (∀ m, f.join? b = some m ↔ f.Nearest b m ∧ ∃ k ∈ f.reachable, ¬ f.OnEvery b k) ∧
        (f.join? b = none ↔
          (∀ m, m ≠ b → ¬ f.OnEvery b m) ∨ ∀ k ∈ f.reachable, f.OnEvery b k) := by
  obtain ⟨f, hf⟩ := exists_build_of_complete hd hfn hcomplete hlength
  exact ⟨f, hf, fun b hb x y hcond => (analysed_of_build hf).join?_iff hb hcond⟩

/-- Two tests in a row, each with both arms leading to the block behind it. -/
def twinTests : List UInt8 :=
  [1, 0, 0, 0, 0, 0, 0, 0, 0, 0, 0, 4, 4, 0, 0, 0, 0, 10, 0, 0, 0, 4, 40, 4, 0, 4, 40, 8, 0, 0, 0]

/-- The graph of the tests is a chain of blocks; only for the second of them a join is found. -/
theorem exists_build_twinTests : ∃ fn ∈ (Script.decode Registry.oldest twinTests).functions,
    fn.complete ∧ ∃ f, build fn.instructions (some fn.codeLength) = .ok f ∧
      (0 ∈ f.reachable ∧ f.ending 0 = .cond 1 1 ∧ f.onward 0 = [1] ∧ f.join? 0 = none) ∧
      1 ∈ f.reachable ∧ f.ending 1 = .cond 2 2 ∧ f.join? 1 = some 2 := by
  have hfound : ((Script.decode Registry.oldest twinTests).functions.any fun fn => fn.complete &&
      ((build fn.instructions (some fn.codeLength)).toOption.any fun f => decide
        ((0 ∈ f.reachable ∧ f.ending 0 = .cond 1 1 ∧ f.onward 0 = [1] ∧ f.join? 0 = none) ∧
          1 ∈ f.reachable ∧ f.ending 1 = .cond 2 2 ∧ f.join? 1 = some 2))) = true := by
    decide +kernel
  obtain ⟨fn, hfn, hfound⟩ := List.any_eq_true.mp hfound
  obtain ⟨hcomplete, hfound⟩ := Bool.and_eq_true_iff.mp hfound
  obtain ⟨f, hf, hfound⟩ := (Option.any_eq_true _ _).mp hfound
  exact ⟨fn, hfn, hcomplete, f, Outcome.toOption_eq_some.mp hf, of_decide_eq_true hfound⟩

/-- The second test has the block behind it as its join. -/
theorem join?_exact_twinTests : ∃ fn ∈ (Script.decode Registry.oldest twinTests).functions,
    fn.complete ∧ ∃ f, build fn.instructions (some fn.codeLength) = .ok f ∧
      f.ending 1 = .cond 2 2 ∧ f.Nearest 1 2 := by
  obtain ⟨fn, hfn, hcomplete, f, hf, -, hreach, hcond, hjoin⟩ := exists_build_twinTests
  obtain ⟨f', hf', hexact⟩ := join?_exact (Dialect.registered_of_mem Registry.oldest_mem) hfn
    hcomplete (some fn.codeLength) fun n hn => (Option.some.inj hn).symm
  obtain rfl : f' = f := Except.ok.inj (hf'.symm.trans hf)
  exact ⟨fn, hfn, hcomplete, f', hf, hcond, ((hexact 1 hreach 2 2 hcond).1 2).mp hjoin |>.1⟩

/-- The nearest block on every forward path is not always found. -/
theorem not_forall_join?_nearest :
    ¬ ∀ d ∈ Registry.standard.dialects, ∀ payload, ∀ fn ∈ (Script.decode d payload).functions,
      fn.complete → ∀ f, build fn.instructions (some fn.codeLength) = .ok f →
      ∀ b ∈ f.reachable, ∀ x y, f.ending b = .cond x y →
        (∀ m, f.join? b = some m → f.Nearest b m) ∧
          (f.join? b = none → ∀ m, m ≠ b → ¬ f.OnEvery b m) := by
  intro hall
  obtain ⟨fn, hfn, hcomplete, f, hf, ⟨hreach, hcond, honward, hjoin⟩, -⟩ := exists_build_twinTests
  refine (hall _ Registry.oldest_mem twinTests fn hfn hcomplete f hf 0 hreach 1 1 hcond).2 hjoin 1
    Nat.one_ne_zero ?_
  rintro r ⟨x, hr, hx⟩
  cases hr with
  | stay =>
    rw [honward] at hx
    cases hx
  | step hstep hrest =>
    rw [honward, List.mem_singleton] at hstep
    subst hstep
    exact List.mem_cons_of_mem _ hrest.mem_first

end Unscript.Flow
