import Unscript.Proofs.Flow.NaturalLoops
import Unscript.Proofs.Structuring.Fuel

/-!
# The blocks that belong to a loop

A loop owns its body and, beyond it, blocks that leave the loop early and that nothing else reaches.
They are added one at a time. What can be added once can be added later as well, so the additions
end in the same set whatever their order; and since a block is added only when all its reachable
predecessors belong to the loop, the set is entered at the header only.

* `Flow.Grows`: a block that can be added to a set.
* `Flow.Grown`: what some additions make of a set.
* `Flow.Full`: a set that no block can be added to.
* `Flow.Encloses`: what the blocks of a loop are.

Results:
* `Flow.Grown.eq_of_full`: the order of the additions makes no difference.
* `Flow.Analysed.grown_growOwned`: rounds of additions are additions, and end when the set is full.
* `Flow.Analysed.encloses_ownedBlocks`: the blocks of a loop are a region with one entry.
* `Flow.ownedBlocks_enclosed`: the loops of a function that was decoded to its end.
-/

namespace Unscript.Flow

variable {f : Flow} {exit : Option Nat} {l : Loop} {s t : BlockSet} {id n x y : Nat} {r : List Nat}

/-! ## Additions -/

/-- A block that can be added to a set: a forward edge leads there from the set, and all that
reaches it is in the set. Headers of loops are not added, nor are the exit and the end of the
function. -/
structure Grows (f : Flow) (exit : Option Nat) (s : BlockSet) (id : Nat) : Prop where
  new : id ∉ s
  next : ∃ x ∈ s, id ∈ f.forwardSuccessors x
  ne_exit : some id ≠ exit
  ne_end : id ≠ f.exit
  reached : id ∈ f.reachable
  plain : f.loopAt? id = none
  entered : ∀ y ∈ f.preds id, y ∈ f.reachable → y ∈ s

/-- What a number of additions make of a set. -/
inductive Grown (f : Flow) (exit : Option Nat) (s : BlockSet) : Nat → BlockSet → Prop where
  | none : Grown f exit s 0 s
  | add {n id : Nat} {t : BlockSet} (h : Grown f exit s n t) (hid : f.Grows exit t id) :
    Grown f exit s (n + 1) (t.insert id)

/-- A set that no block can be added to. -/
def Full (f : Flow) (exit : Option Nat) (s : BlockSet) : Prop :=
  ∀ id, ¬ f.Grows exit s id

theorem grows_iff : f.Grows exit s id ↔
    id ∉ s ∧ (∃ x ∈ s, id ∈ f.forwardSuccessors x) ∧ f.joinsLoop exit s id = true := by
  have hjoins : f.joinsLoop exit s id = true ↔ some id ≠ exit ∧ id ≠ f.exit ∧ id ∈ f.reachable ∧
      f.loopAt? id = none ∧ ∀ y ∈ f.preds id, y ∈ f.reachable → y ∈ s := by
    have hmem (i : Nat) (u : BlockSet) : u.contains i = true ↔ i ∈ u := Iff.rfl
    simp only [joinsLoop, Bool.and_eq_true, bne_iff_ne, List.all_eq_true, Bool.or_eq_true,
      Bool.not_eq_true', ← Bool.not_eq_true, hmem, Option.isNone_iff_eq_none, and_assoc,
      ← imp_iff_not_or]
  rw [hjoins]
  constructor
  · intro h
    exact ⟨h.new, h.next, h.ne_exit, h.ne_end, h.reached, h.plain, h.entered⟩
  · rintro ⟨hnew, hnext, hexit, hend, hreached, hplain, hentered⟩
    exact ⟨hnew, hnext, hexit, hend, hreached, hplain, hentered⟩

/-- What can be added to a set can be added to a larger one that it is not in. -/
theorem Grows.mono (h : f.Grows exit s id) (hsub : ∀ x ∈ s, x ∈ t) (hnew : id ∉ t) :
    f.Grows exit t id := by
  obtain ⟨x, hx, hnext⟩ := h.next
  exact { h with
    new := hnew
    next := ⟨x, hsub x hx, hnext⟩
    entered := fun y hy hreach => hsub y (h.entered y hy hreach) }

namespace Grown

theorem subset (h : f.Grown exit s n t) : ∀ x ∈ s, x ∈ t := by
  induction h with
  | none => exact fun x hx => hx
  | add _ _ ih => exact fun x hx => BlockSet.mem_insert.mpr (.inl (ih x hx))

/-- Additions lead to no set that is not part of a full one. -/
theorem subset_of_full {u : BlockSet} (h : f.Grown exit s n t) (hsub : ∀ x ∈ s, x ∈ u)
    (hfull : f.Full exit u) : ∀ x ∈ t, x ∈ u := by
  induction h with
  | none => exact hsub
  | @add n id t _ hid ih =>
    intro x hx
    rcases BlockSet.mem_insert.mp hx with hx | rfl
    · exact ih x hx
    · by_contra hnew
      exact hfull x (hid.mono ih hnew)

/-- **The order of the additions** makes no difference once no block can be added. -/
theorem eq_of_full {m : Nat} {t' : BlockSet} (h : f.Grown exit s n t) (h' : f.Grown exit s m t')
    (hfull : f.Full exit t) (hfull' : f.Full exit t') : t = t' := by
  ext x
  exact ⟨h.subset_of_full h'.subset hfull' x, h'.subset_of_full h.subset hfull x⟩

theorem trans {m : Nat} {u : BlockSet} (h : f.Grown exit s n t) (h' : f.Grown exit t m u) :
    f.Grown exit s (n + m) u := by
  induction h' with
  | none => exact h
  | add _ hid ih => exact ih.add hid

/-- What holds of a set and of all blocks that can be added holds of what is made of it. -/
theorem induction {P : Nat → Prop} (h : f.Grown exit s n t) (hs : ∀ x ∈ s, P x)
    (hadd : ∀ u id, (∀ x ∈ u, P x) → f.Grows exit u id → P id) : ∀ x ∈ t, P x := by
  induction h with
  | none => exact hs
  | @add n id t _ hid ih =>
    intro x hx
    rcases BlockSet.mem_insert.mp hx with hx | rfl
    · exact ih x hx
    · exact hadd t x ih hid

/-- A row of different blocks is added one after another. -/
theorem foldl_insert {more : List Nat} (h : f.Grown exit s n t) (hnodup : more.Nodup)
    (hmore : ∀ id ∈ more, f.Grows exit t id) :
    f.Grown exit s (n + more.length) (more.foldl BlockSet.insert t) := by
  induction more generalizing n t with
  | nil => exact h
  | cons id more ih =>
    obtain ⟨hid, hnodup⟩ := List.nodup_cons.mp hnodup
    have hsub : ∀ x ∈ t, x ∈ t.insert id := fun x hx => BlockSet.mem_insert.mpr (.inl hx)
    have hrest : ∀ x ∈ more, f.Grows exit (t.insert id) x := by
      intro x hx
      refine (hmore x (List.mem_cons_of_mem _ hx)).mono hsub fun hx' => ?_
      rcases BlockSet.mem_insert.mp hx' with hx' | rfl
      · exact (hmore x (List.mem_cons_of_mem _ hx)).new hx'
      · exact hid hx
    have hgrown := ih (h.add (hmore id List.mem_cons_self)) hnodup hrest
    rw [Nat.add_assoc, Nat.add_comm 1] at hgrown
    exact hgrown

end Grown

/-- **What the blocks of a loop are**: a full set, made of the body by additions. -/
structure Encloses (f : Flow) (l : Loop) (exit : Option Nat) (s : BlockSet) : Prop where
  body : ∀ x ∈ l.body, x ∈ s
  /-- What leads to a block of the region, other than the header, is in the region. -/
  entered : ∀ x ∈ s, x ≠ l.header → ∀ y ∈ f.reachable, f.graph.Arrow y x → y ∈ s
  /-- Every path from the entry to a block of the region passes the header. -/
  dominated : ∀ x ∈ s, f.Dominates l.header x
  /-- Beyond the body, the region holds no headers of loops and not the exits. -/
  added : ∀ x ∈ s, x ∉ l.body → x ∈ f.reachable ∧ (∀ m ∈ f.loops, m.header ≠ x) ∧
    some x ≠ exit ∧ x ≠ f.exit
  grown : ∃ n, f.Grown exit l.body n s
  full : f.Full exit s

namespace Analysed

/-- A block that is added was absent. -/
theorem absent_insert (h : f.Analysed) (hid : f.Grows exit s id) :
    absent f (s.insert id) < absent f s := by
  have hlt := h.lt_exit_of_joinsLoop (grows_iff.mp hid).2.2
  exact absent_insert_lt (List.mem_singleton_self id) hlt hid.new

/-- **Additions end**: there are no more of them than blocks are absent. -/
theorem add_absent_le (h : f.Analysed) (hgrown : f.Grown exit s n t) :
    n + absent f t ≤ absent f s := by
  induction hgrown with
  | none => omega
  | add _ hid ih =>
    have := h.absent_insert hid
    omega

/-- **Rounds of additions** are additions, and end when the set is full. -/
theorem grown_growOwned (h : f.Analysed) (exit : Option Nat) {fuel : Nat}
    (hfuel : absent f s < fuel) :
    (∃ n, f.Grown exit s n (f.growOwned exit fuel s)) ∧ f.Full exit (f.growOwned exit fuel s) := by
  induction fuel generalizing s with
  | zero => exact absurd hfuel (Nat.not_lt_zero _)
  | succ fuel ih =>
    unfold growOwned
    dsimp only
    generalize hmore : ((BlockSet.ofList (s.toList.flatMap f.forwardSuccessors)).diff
      s).toList.filter (f.joinsLoop exit s) = more
    have hmem : ∀ id, id ∈ more ↔ f.Grows exit s id := by
      intro id
      rw [← hmore, grows_iff, List.mem_filter, BlockSet.mem_toList, BlockSet.mem_diff,
        BlockSet.mem_ofList, List.mem_flatMap]
      simp only [BlockSet.mem_toList]
      tauto
    split
    · rename_i hnone
      refine ⟨⟨0, .none⟩, fun id hid => ?_⟩
      rw [List.isEmpty_iff.mp hnone] at hmem
      exact absurd ((hmem id).mpr hid) List.not_mem_nil
    · rename_i hsome
      have hnodup : more.Nodup := by
        rw [← hmore]
        exact (List.nodup_range.filter _).filter _
      have hgrown := (Grown.none : f.Grown exit s 0 s).foldl_insert hnodup
        fun id hid => (hmem id).mp hid
      have hpos : 0 < more.length := List.length_pos_iff.mpr fun hnil => hsome (by rw [hnil]; rfl)
      have hle := h.add_absent_le hgrown
      obtain ⟨⟨m, hrest⟩, hfull⟩ := ih (s := more.foldl BlockSet.insert s) (by omega)
      exact ⟨⟨_, hgrown.trans hrest⟩, hfull⟩

/-! ## Regions with one entry -/

section Owned

variable (h : f.Analysed) (hl : f.loopAt? l.header = some l)

include h

/-- What reaches a block of a set with one entry, without passing the entry, is in the set. -/
theorem mem_of_route {b : Nat}
    (hentered : ∀ x ∈ s, x ≠ b → ∀ y ∈ f.reachable, f.graph.Arrow y x → y ∈ s)
    (hr : Route f.graph.Arrow x y r) (hx : x ∈ f.reachable) (hy : y ∈ s) (hb : b ∉ r) : x ∈ s := by
  induction hr with
  | stay => exact hy
  | @step x z y r hxz hr ih =>
    have hbr : b ∉ r := fun hmem => hb (List.mem_cons_of_mem _ hmem)
    have hz := ih (h.next_mem hx (h.arrow_iff.mp hxz)) hy hbr
    exact hentered z hz (fun heq => hbr (heq ▸ hr.mem_first)) x hx hxz

/-- Beyond the body, there are no headers of loops and not the exits. -/
theorem added_of_grown (hgrown : f.Grown exit l.body n s) : ∀ x ∈ s, x ∉ l.body →
    x ∈ f.reachable ∧ (∀ m ∈ f.loops, m.header ≠ x) ∧ some x ≠ exit ∧ x ≠ f.exit := by
  refine hgrown.induction (fun x hx hout => absurd hx hout) fun u id _ hid _ => ?_
  refine ⟨hid.reached, fun m hm heq => ?_, hid.ne_exit, hid.ne_end⟩
  have hplain := hid.plain
  rw [← heq, h.loopAt?_of_mem hm] at hplain
  cases hplain

include hl

/-- The blocks that are added keep the region one with the header as its entry. -/
theorem entered_of_grown (hgrown : f.Grown exit l.body n s) :
    ∀ x ∈ s, x ≠ l.header → ∀ y ∈ f.reachable, f.graph.Arrow y x → y ∈ s := by
  induction hgrown with
  | none =>
    intro x hx hne y hy hyx
    exact h.pred_mem_body hl hx hne hy (h.arrow_iff.mp hyx)
  | @add n id t _ hid ih =>
    intro x hx hne y hy hyx
    refine BlockSet.mem_insert.mpr (.inl ?_)
    rcases BlockSet.mem_insert.mp hx with hx | rfl
    · exact ih x hx hne y hy hyx
    · exact hid.entered y (h.mem_preds_of_next hy (h.arrow_iff.mp hyx)) hy

/-- The entry of the function is never added: every edge there is a back edge. -/
theorem zero_mem_body (hgrown : f.Grown exit l.body n s) (hzero : 0 ∈ s) : 0 ∈ l.body := by
  refine (hgrown.induction (P := fun x => x ∈ f.reachable ∧ (x = 0 → 0 ∈ l.body))
    (fun x hx => ⟨h.body_mem hl hx, fun heq => heq ▸ hx⟩) ?_ 0 hzero).2 rfl
  rintro u id hall hid
  refine ⟨hid.reached, ?_⟩
  rintro rfl
  obtain ⟨x, hx, hnext⟩ := hid.next
  obtain ⟨hnext, hforward⟩ := List.mem_filter.mp hnext
  have hreach := (hall x hx).1
  have hroute := h.exists_route_of_arrow hreach (h.arrow_iff.mpr hnext)
  have hback : f.kind x 0 = .back :=
    (kind_eq_back hreach).mpr ((h.mem_dominators_iff hroute).mpr fun r hr => hr.mem_first)
  rw [hback] at hforward
  cases hforward

/-- **The header dominates** what is added to the body of a reducible loop. -/
theorem dominates_of_grown (hreducible : l.reducible = true) (hgrown : f.Grown exit l.body n s)
    (hx : x ∈ s) : f.Dominates l.header x := by
  intro r hr
  by_contra hb
  have hzero := h.mem_of_route (h.entered_of_grown hl hgrown) hr h.zero_mem hx hb
  have hheader := h.header_eq_zero hl hreducible (h.zero_mem_body hl hgrown hzero)
  exact hb (hheader ▸ hr.mem_first)

/-- **The blocks of a reducible loop** are a region with one entry. -/
theorem encloses_ownedBlocks (hreducible : l.reducible = true) (exit : Option Nat) :
    f.Encloses l exit (f.ownedBlocks l exit) := by
  have hfuel : absent f l.body < f.graph.size + 1 := by
    have hle := absent_le f l.body
    have hsize := h.size_eq
    omega
  obtain ⟨⟨n, hgrown⟩, hfull⟩ := h.grown_growOwned exit hfuel
  exact {
    body := hgrown.subset
    entered := h.entered_of_grown hl hgrown
    dominated := fun _ hx => h.dominates_of_grown hl hreducible hgrown hx
    added := h.added_of_grown hgrown
    grown := ⟨n, hgrown⟩
    full := hfull }

end Owned

end Analysed

/-! ## Decoded functions -/

/-- **The blocks of a loop.** A function that was decoded to its end has a graph, whether the length
of its code is given or not. For every reducible loop of it and every choice of a block after the
loop, the blocks of the loop are a region that is entered at the header only: it holds the body,
with every block but the header all that leads there, and beyond the body only blocks that can be
reached, that are no headers of loops, and that are neither the chosen block nor the end of the
function. Blocks can be added to the body no more often than there are blocks, and in whatever order
they are added, they make the same set. -/
theorem ownedBlocks_enclosed {d : Dialect} (hd : d.Registered) {payload : List UInt8}
    {fn : Function} (hfn : fn ∈ (Script.decode d payload).functions) (hcomplete : fn.complete)
    (length : Option Nat) (hlength : ∀ n ∈ length, n = fn.codeLength) :
    ∃ f, build fn.instructions length = .ok f ∧
      ∀ l ∈ f.loops, l.reducible = true → ∀ exit : Option Nat,
        f.Encloses l exit (f.ownedBlocks l exit) ∧
        (∀ n s, f.Grown exit l.body n s → n ≤ f.exit) ∧
        ∀ n s, f.Grown exit l.body n s → f.Full exit s → s = f.ownedBlocks l exit := by
  obtain ⟨f, hf⟩ := exists_build_of_complete hd hfn hcomplete hlength
  have h := analysed_of_build hf
  refine ⟨f, hf, fun l hl hreducible exit => ?_⟩
  have hencloses := h.encloses_ownedBlocks (h.loopAt?_of_mem hl) hreducible exit
  refine ⟨hencloses, fun n s hgrown => ?_, fun n s hgrown hfull => ?_⟩
  · have hle := h.add_absent_le hgrown
    have habsent := Analysed.absent_le f l.body
    omega
  · obtain ⟨m, hgrown'⟩ := hencloses.grown
    exact hgrown.eq_of_full hgrown' hfull hencloses.full

/-- A loop of three blocks that is left early owns a fourth one, which leaves it. -/
theorem ownedBlocks_enclosed_return :
    ∃ fn ∈ (Script.decode Registry.oldest [1, 0, 0, 0, 0, 0, 0, 0, 0, 0, 0, 1, 1, 0, 0, 0, 0, 15, 0,
        0, 0, 4, 41, 13, 0, 4, 41, 10, 0, 4, 44, 39, 0, 0, 4, 44]).functions,
      fn.complete ∧ ∃ f, build fn.instructions (some fn.codeLength) = .ok f ∧
        ∃ l ∈ f.loops, (l.body.toList = [0, 1, 3] ∧ l.reducible = true ∧
            (f.ownedBlocks l (f.loopExit? l)).toList = [0, 1, 2, 3]) ∧
          f.Encloses l (f.loopExit? l) (f.ownedBlocks l (f.loopExit? l)) := by
  have hfound : ((Script.decode Registry.oldest [1, 0, 0, 0, 0, 0, 0, 0, 0, 0, 0, 1, 1, 0, 0, 0, 0,
      15, 0, 0, 0, 4, 41, 13, 0, 4, 41, 10, 0, 4, 44, 39, 0, 0, 4, 44]).functions.any
      fun fn => fn.complete && ((build fn.instructions (some fn.codeLength)).toOption.any fun f =>
        f.loops.any fun l => decide (l.body.toList = [0, 1, 3] ∧ l.reducible = true ∧
          (f.ownedBlocks l (f.loopExit? l)).toList = [0, 1, 2, 3]))) = true := by
    decide +kernel
  obtain ⟨fn, hfn, hfound⟩ := List.any_eq_true.mp hfound
  obtain ⟨hcomplete, hfound⟩ := Bool.and_eq_true_iff.mp hfound
  obtain ⟨f, hf, hfound⟩ := (Option.any_eq_true _ _).mp hfound
  obtain ⟨l, hl, hfound⟩ := List.any_eq_true.mp hfound
  have hloop := of_decide_eq_true hfound
  obtain ⟨f', hf', hall⟩ := ownedBlocks_enclosed (Dialect.registered_of_mem Registry.oldest_mem) hfn
    hcomplete (some fn.codeLength) fun n hn => (Option.some.inj hn).symm
  obtain rfl : f' = f := Except.ok.inj (hf'.symm.trans (Outcome.toOption_eq_some.mp hf))
  exact ⟨fn, hfn, hcomplete, f', hf', l, hl, hloop, (hall l hl hloop.2.1 _).1⟩

end Unscript.Flow
