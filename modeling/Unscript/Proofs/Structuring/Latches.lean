import Unscript.Proofs.Flow.Loops
import Unscript.Proofs.Structuring.Derivation

/-!
# How the walk reaches the latch of an iteration

An iteration visits its latch before it builds its body, whether or not the latch was visited
before. The walk reaches the blocks of a loop behind its header from the blocks of the loop only:
along an edge, where arms meet, or after an inner loop. The header of an iteration is built only in
the body of the iteration, so no other construct reaches the latch earlier, unless it is the header
as well: then any jump to it does.

* `Flow.Sidestepped`: an iteration of one block that is entered without being begun.
* `Structuring.Known`: a block that the walk cannot reach before the iteration around it is begun.
* `Structuring.Passed`: a visited block that the walk goes on from.

Results:
* `Structuring.Passed.next`, `Structuring.Passed.join`, `Structuring.Passed.loopExit`: where the walk
  goes on, blocks are known.
-/

namespace Unscript

/-- An iteration whose only block advances its iterator, and which is entered by a block that does
not begin it. -/
structure Flow.Sidestepped (f : Flow) (b : Nat) : Prop where
  advances : ∃ exhausted, f.ending b = .iterNext b exhausted
  begins : ∃ a ∈ f.reachable, ∃ exhausted, f.ending a = .iterBegin b exhausted
  entered : ∃ c ∈ f.reachable, b ∈ (f.ending c).successors ∧ c ≠ b ∧
    ∀ exhausted, f.ending c ≠ .iterBegin b exhausted

namespace Structuring

variable {p : Plan} {V V' : BlockSet} {a id exit latch x y : Nat} {l : Loop}

/-! ## Blocks of an iteration -/

/-- A block that begins an iteration, with the loop of the iteration and its latch. -/
structure Iterates (p : Plan) (id exit : Nat) (l : Loop) (latch : Nat) : Prop where
  reach : id ∈ p.flow.reachable
  begins : p.flow.ending id = .iterBegin (id + 1) exit
  advances : Advances p (id + 1) exit l latch

/-- A block of an iteration that the walk does not reach before the iteration is begun. -/
def Behind (p : Plan) (id x : Nat) : Prop :=
  ∃ exit l latch, Iterates p id exit l latch ∧ x ∈ l.body ∧
    (x = id + 1 → latch = id + 1 ∧ ¬ p.flow.Sidestepped (id + 1))

/-- A block that the walk may reach: the iterations around it were begun. -/
def Known (p : Plan) (V : BlockSet) (x : Nat) : Prop :=
  ∀ id, Behind p id x → id ∈ V

/-- A block that the walk may go on from, if it is the header of an iteration. -/
def HeaderKnown (p : Plan) (V : BlockSet) (x : Nat) : Prop :=
  ∀ id exit l latch, Iterates p id exit l latch → x = id + 1 → id ∈ V

/-- A visited block that the walk goes on from. -/
structure Passed (p : Plan) (V : BlockSet) (y : Nat) : Prop where
  reach : y ∈ p.flow.reachable
  mem : y ∈ V
  known : Known p V y
  header : HeaderKnown p V y

theorem Known.mono (h : Known p V x) (hsub : ∀ i ∈ V, i ∈ V') : Known p V' x :=
  fun id hid => hsub id (h id hid)

theorem HeaderKnown.mono (h : HeaderKnown p V x) (hsub : ∀ i ∈ V, i ∈ V') : HeaderKnown p V' x :=
  fun id exit l latch hit hx => hsub id (h id exit l latch hit hx)

theorem Passed.mono (h : Passed p V y) (hsub : ∀ i ∈ V, i ∈ V') : Passed p V' y :=
  ⟨h.reach, hsub y h.mem, h.known.mono hsub, h.header.mono hsub⟩

/-- A header of a loop that advances no iterator is none of an iteration. -/
theorem headerKnown_of_regular (hl : p.flow.loopAt? x = some l) (hregular : irregular p l = false) :
    HeaderKnown p V x := by
  rintro id exit l' latch hit rfl
  have hsame := hl.symm.trans hit.advances.loop
  cases hsame
  unfold irregular at hregular
  rw [hit.advances.latches] at hregular
  simp [hit.advances.ending, Ending.kind] at hregular

theorem headerKnown_of_none (h : p.flow.loopAt? x = none) : HeaderKnown p V x := by
  rintro id exit l latch hit rfl
  exact nomatch h.symm.trans hit.advances.loop

namespace Iterates

theorem latch_mem (h : Iterates p id exit l latch) : latch ∈ l.latches := by
  rw [← BlockSet.mem_toList, h.advances.latches]
  exact List.mem_singleton_self latch

theorem successors_setup (h : Iterates p id exit l latch) :
    x ∈ (p.flow.ending id).successors ↔ x = id + 1 ∨ x = exit :=
  Ending.mem_successors_of_arms? (congrArg Ending.arms? h.begins)

theorem successors_latch (h : Iterates p id exit l latch) :
    x ∈ (p.flow.ending latch).successors ↔ x = id + 1 ∨ x = exit :=
  Ending.mem_successors_of_arms? (congrArg Ending.arms? h.advances.ending)

/-- An iteration of one block that is not sidestepped is entered from its beginning only. -/
theorem pred_eq (hf : p.flow.Analysed) (h : Iterates p id exit l latch) (hlatch : latch = id + 1)
    (hnot : ¬ p.flow.Sidestepped (id + 1)) (hy : y ∈ p.flow.reachable)
    (hnext : id + 1 ∈ (p.flow.ending y).successors) : y = id ∨ y = id + 1 := by
  by_contra hne
  push Not at hne
  refine hnot ⟨⟨exit, hlatch ▸ h.advances.ending⟩, ⟨id, h.reach, exit, h.begins⟩,
    ⟨y, hy, hnext, hne.2, fun exhausted hbegins => hne.1 ?_⟩⟩
  have := hf.proper.element y _ _ hbegins
  omega

end Iterates

/-! ## Where the walk goes on -/

/-- Edges lead behind a setup from there, or from the header of the loop. -/
theorem behind_pred (hf : p.flow.Analysed) (h : Behind p id x) (hy : y ∈ p.flow.reachable)
    (hnext : x ∈ (p.flow.ending y).successors) : y = id ∨ y = id + 1 ∨ Behind p id y := by
  obtain ⟨exit, l, latch, hit, hx, hheader⟩ := h
  by_cases hxh : x = id + 1
  · obtain ⟨hlatch, hnot⟩ := hheader hxh
    exact (hit.pred_eq hf hlatch hnot hy (hxh ▸ hnext)).imp_right .inl
  · have hbody := hf.pred_mem_body hit.advances.loop hx hxh hy hnext
    by_cases hyh : y = id + 1
    · exact .inr (.inl hyh)
    · exact .inr (.inr ⟨exit, l, latch, hit, hbody, fun heq => absurd heq hyh⟩)

/-- The walk may go on along an edge. -/
theorem Passed.next (hf : p.flow.Analysed) (h : Passed p V y)
    (hnext : x ∈ (p.flow.ending y).successors) : Known p V x := by
  intro id hbehind
  rcases behind_pred hf hbehind h.reach hnext with rfl | hy | hy
  · exact h.mem
  · obtain ⟨exit, l, latch, hit, -⟩ := hbehind
    exact h.header id exit l latch hit hy
  · exact h.known id hy

/-- The walk may go on where the arms of a conditional meet. -/
theorem Passed.join (hf : p.flow.Analysed) (h : Passed p V y) (hj : p.flow.join? y = some x) :
    Known p V x := by
  rintro id ⟨exit, l, latch, hit, hx, hheader⟩
  by_cases hxh : x = id + 1
  · -- The beginning of the iteration is the only way to it, and no conditional.
    obtain ⟨rfl, hnot⟩ := hheader hxh
    have hset := hf.join?_mem_of_entry (S := fun z => z = id ∨ z = id + 1) hit.reach (.inl rfl)
      (fun z hz w hw hSw hne => hit.pred_eq hf rfl hnot hz (hSw.resolve_left hne ▸ hw)) hj (.inr hxh)
      (by omega)
    unfold Flow.join? at hj
    rcases hset with rfl | rfl
    · rw [hit.begins] at hj
      cases hj
    · rw [hit.advances.ending] at hj
      cases hj
  · have hbody := hf.join?_mem_body hit.advances.loop hj hx hxh
    by_cases hyh : y = id + 1
    · exact h.header id exit l latch hit hyh
    · exact h.known id ⟨exit, l, latch, hit, hbody, fun heq => absurd heq hyh⟩

/-- A loop that begins an iteration of one block, behind its own header, holds the iteration. -/
theorem Iterates.mem_body (hf : p.flow.Analysed) (h : Iterates p id exit l latch)
    (hlatch : latch = id + 1) (hnot : ¬ p.flow.Sidestepped (id + 1)) {l' : Loop}
    (hl' : p.flow.loopAt? a = some l') (hr : l'.reducible = true) (hid : id ∈ l'.body)
    (hne : id ≠ a) : id + 1 ∈ l'.body := by
  have hreach : id + 1 ∈ p.flow.reachable :=
    hf.next_mem h.reach (h.successors_setup.mpr (.inl rfl))
  have hexit : exit ∈ (p.flow.ending (id + 1)).successors :=
    hlatch ▸ h.successors_latch.mpr (.inr rfl)
  rcases hf.latch_or_next hl' hid hne with ht | ⟨z, hz, hza, hnext⟩
  · rcases h.successors_setup.mp (hf.latch_next hl' ht).2 with rfl | rfl
    · exact hf.header_mem hl'
    · -- What leads to the header from the setup dominates the iteration too.
      refine hf.mem_body_of_dominator hl' hreach hexit ?_
      have hdom := hf.reducible_eq a l' hl' hr id hid
      rw [hf.dominators_eq] at hdom ⊢
      refine Graph.dominators_of_preds (hf.lt_size hreach) (Nat.succ_ne_zero id) hreach
        (hf.mem_preds_of_next h.reach (h.successors_setup.mpr (.inl rfl))) h.reach ?_
        (hf.body_mem hl' (hf.header_mem hl')) hdom
      exact fun y hy hr => h.pred_eq hf hlatch hnot hr (hf.mem_preds.mp hy).2.2
  · rcases h.successors_setup.mp hnext with rfl | rfl
    · exact hz
    · exact hf.pred_mem_body hl' hz hza hreach hexit

/-- The walk may go on after a loop. -/
theorem Passed.loopExit (hf : p.flow.Analysed) (h : Passed p V a) {l' : Loop}
    (hl' : p.flow.loopAt? a = some l') (hr : l'.reducible = true)
    (hx : p.flow.loopExit? l' = some x) : Known p V x := by
  have hexits := Flow.Analysed.mem_exits_of_loopExit? hx
  rintro id ⟨exit, l, latch, hit, hxl, hheader⟩
  by_cases hxh : x = id + 1
  · obtain ⟨hlatch, hnot⟩ := hheader hxh
    obtain ⟨c, hc, hcx, hout⟩ := hf.exists_of_mem_exits hl' hexits
    rcases hit.pred_eq hf hlatch hnot (hf.body_mem hl' hc) (hxh ▸ hcx) with rfl | rfl
    · by_cases hca : c = a
      · exact hca ▸ h.mem
      · exact absurd (hxh ▸ hit.mem_body hf hlatch hnot hl' hr hc hca) hout
    · exact absurd (hxh ▸ hc) hout
  · have hbody := hf.header_mem_body hl' hit.advances.loop hit.advances.reducible hexits hxl hxh
    by_cases hah : a = id + 1
    · exact h.header id exit l latch hit hah
    · exact h.known id ⟨exit, l, latch, hit, hbody, fun heq => absurd heq hah⟩

/-- No iteration holds the end of the function. -/
theorem known_exit (hf : p.flow.Analysed) (V : BlockSet) : Known p V p.flow.exit := by
  rintro id ⟨exit, l, latch, hit, hx, hheader⟩
  exfalso
  by_cases hxh : p.flow.exit = id + 1
  · have hlatch := (hheader hxh).1
    have hending : p.flow.ending p.flow.exit = .exit := hf.proper.ending_exit
    rw [hxh, ← hlatch, hit.advances.ending] at hending
    cases hending
  · exact hf.ne_exit_of_mem hit.advances.loop hx hxh rfl

/-- No iteration holds the entry. -/
theorem known_zero (hf : p.flow.Analysed) (V : BlockSet) : Known p V 0 := by
  rintro id ⟨exit, l, latch, hit, hx, -⟩
  exact absurd (hf.header_eq_zero hit.advances.loop hit.advances.reducible hx) (Nat.succ_ne_zero id)

end Structuring

end Unscript
