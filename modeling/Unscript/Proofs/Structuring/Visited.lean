import Unscript.Proofs.Structuring.Count

/-!
# Bodies hold the blocks that they visit

A construct holds its block and what its bodies hold, and goes on at a block that the walk may
reach. The comparisons of a match are visited together: none is visited before, and no two are the
same, since each is the only predecessor of the next.

* `Structuring.Starts`: where a body may be built.
* `Structuring.Continues`: a construct that holds what it visits.

Results:
* `Structuring.Links.visits`: the comparisons of a match are new and different.
* `Structuring.continues_made`: the construct at a block.
* `Structuring.counts_derived`: all bodies hold what they visit.
-/

namespace Unscript.Structuring

open BlockSet (mem_insert_self subset_insert)
open Node (Each gather)

variable {p : Plan} {B : Bodies} {r : Region} {V V₁ V₂ V' W : BlockSet} {a b : List Node} {n : Node}
  {id x y start stop join : Nat}

/-! ## Chains -/

/-- Blocks each of which has the next one as its only predecessor, up to a visited one. -/
inductive Trail (f : Flow) (V : BlockSet) : List Nat → Prop
  | start {x : Nat} (hx : x ∈ V) : Trail f V [x]
  | link {x y : Nat} {past : List Nat} (hpreds : f.preds x = [y]) (hfresh : x ∉ V)
    (h : Trail f V (y :: past)) : Trail f V (x :: y :: past)

theorem Trail.exists_pred {f : Flow} {ids : List Nat} (h : Trail f V ids) (hx : x ∈ ids)
    (hfresh : x ∉ V) : ∃ y ∈ ids.tail, f.preds x = [y] := by
  induction h with
  | start hvisited => exact absurd (List.mem_singleton.mp hx ▸ hvisited) hfresh
  | link hpreds _ _ ih =>
    rcases List.mem_cons.mp hx with rfl | hx
    · exact ⟨_, List.mem_cons_self, hpreds⟩
    · obtain ⟨y, hy, hpreds⟩ := ih hx
      exact ⟨y, List.mem_of_mem_tail hy, hpreds⟩

theorem Trail.nodup {f : Flow} {ids : List Nat} (h : Trail f V ids) : ids.Nodup := by
  induction h with
  | start => exact List.nodup_singleton _
  | @link x y past hpreds hfresh h ih =>
    refine List.nodup_cons.mpr ⟨fun hx => ?_, ih⟩
    obtain ⟨z, hz, hpreds'⟩ := h.exists_pred hx hfresh
    rw [hpreds] at hpreds'
    cases hpreds'
    exact (List.nodup_cons.mp ih).1 hz

/-- A comparison that continues a chain is new, begins no loop and follows one block only. -/
theorem canFollow_eq {s : Chain.Scope} (h : Chain.canFollow p s V y id = true) :
    id ∉ V ∧ p.flow.loopAt? id = none ∧ p.flow.preds id = [y] := by
  unfold Chain.canFollow at h
  simp only [Bool.and_eq_true, Bool.not_eq_true', Bool.or_eq_false_iff, beq_iff_eq] at h
  obtain ⟨⟨⟨⟨⟨⟨⟨-, hfresh⟩, hloop⟩, -⟩, -⟩, hpreds⟩, -⟩, -⟩ := h
  refine ⟨fun hid => ?_, ?_, hpreds⟩
  · rw [show V.contains id = true from hid] at hfresh
    cases hfresh
  · exact Option.isNone_iff_eq_none.mp (Option.isSome_eq_false_iff.mp hloop)

section Links

variable {s : Chain.Scope} {current fallback last : Nat} {cases : List (Expr × Nat)}
  {tests past : List Nat}

theorem Links.trail (h : Links p s V current fallback cases tests last)
    (hpast : Trail p.flow V (current :: past)) :
    Trail p.flow V (tests.reverse ++ current :: past) := by
  induction h generalizing past with
  | done => exact hpast
  | link hcan _ _ _ _ _ _ ih =>
    obtain ⟨hfresh, -, hpreds⟩ := canFollow_eq hcan
    rw [List.reverse_cons, List.append_assoc]
    exact ih (.link hpreds hfresh hpast)

theorem Links.fresh (h : Links p s V current fallback cases tests last) : ∀ t ∈ tests, t ∉ V := by
  induction h with
  | done => exact fun _ ht => absurd ht List.not_mem_nil
  | link hcan _ _ _ _ _ _ ih => exact List.forall_mem_cons.mpr ⟨(canFollow_eq hcan).1, ih⟩

/-- The comparisons of a match are new and different. -/
theorem Links.visits (h : Links p s V current fallback cases tests last) (hcurrent : current ∈ V) :
    Visits p.flow V tests (tests.foldl BlockSet.insert V) := by
  have hnodup := (h.trail (.start hcurrent)).nodup
  exact visits_of_nodup (List.nodup_reverse.mp (List.nodup_append.mp hnodup).1) h.fresh

/-- The comparisons of a match may be reached, and so may its arms. -/
theorem Links.known (hf : p.flow.Analysed) (h : Links p s V current fallback cases tests last)
    (htests : ∀ t ∈ tests, t ∈ W) (hcurrent : Passed p W current)
    (hnext : fallback ∈ (p.flow.ending current).successors) :
    (∀ t ∈ tests, Known p W t) ∧ (∀ c ∈ cases, Known p W c.2) ∧ Known p W last := by
  induction h with
  | done => exact ⟨by simp, by simp, hcurrent.next hf hnext⟩
  | link hcan _ _ _ _ harms _ ih =>
    obtain ⟨ha, hb⟩ := Ending.mem_of_arms? harms
    obtain ⟨ht, htests⟩ := List.forall_mem_cons.mp htests
    have hknown := hcurrent.next hf hnext
    have hpassed : Passed p W _ := ⟨hf.next_mem hcurrent.reach hnext, ht, hknown,
      headerKnown_of_none (canFollow_eq hcan).2.1⟩
    obtain ⟨htest, hcases, hlast⟩ := ih htests hpassed hb
    exact ⟨List.forall_mem_cons.mpr ⟨hknown, htest⟩,
      List.forall_mem_cons.mpr ⟨hpassed.next hf ha, hcases⟩, hlast⟩

end Links

/-! ## Bodies -/

/-- Where a body may be built: the walk may reach its first block, and go on from the header of the
loop that it is the body of. -/
structure Starts (p : Plan) (V : BlockSet) (start : Nat) (r : Region) : Prop where
  ordered : Ordered p V
  known : Known p V start
  header : ∀ y, r.header = some y → HeaderKnown p V y

/-- Bodies that hold what they visit. -/
def Counts (p : Plan) (B : Bodies) : Prop :=
  ∀ entering start r V nodes V', B entering start r V nodes V' → Starts p V start r →
    Keeps p V nodes V' ∧ (entering = true → start ∈ V')

/-- A construct that holds what it visits, its block among it, and goes on at a block that the walk
may reach. -/
structure Continues (p : Plan) (V : BlockSet) (id : Nat) (c : Construct) (V' : BlockSet) :
    Prop where
  keeps : Keeps p V c.1 V'
  visited : id ∈ V'
  next : ∀ next, c.2 = some next → Known p V' next

theorem keeps_arm (hB : Counts p B) (h : Arm B r start stop V a V') (hs : Starts p V start r) :
    Keeps p V a V' := by
  cases h with
  | empty => exact .nil hs.ordered
  | body _ hbody => exact (hB _ _ _ _ _ _ hbody hs).1

theorem keeps_fallback (hB : Counts p B) {fallback : Option (List Node)}
    (h : Fallback B r start stop V fallback V') (hs : Starts p V start r) :
    Keeps p V (fallback.getD []) V' := by
  cases h with
  | absent => exact .nil hs.ordered
  | present _ hbody => exact (hB _ _ _ _ _ _ hbody hs).1

theorem keeps_arms (hB : Counts p B) {cases : List (Expr × Nat)} {bodies : List (Expr × List Node)}
    (h : Arms B r stop cases V bodies V') (hordered : Ordered p V)
    (hcases : ∀ c ∈ cases, Known p V c.2) (hheader : ∀ y, r.header = some y → HeaderKnown p V y) :
    (∀ c ∈ bodies, Each (Faithful p) c.2) ∧
      Visits p.flow V (bodies.flatMap fun c => gather Node.ownBlocks c.2) V' ∧ Ordered p V' := by
  induction h with
  | nil V => exact ⟨by simp, visits_nil _ V, hordered⟩
  | cons harm _ ih =>
    obtain ⟨hstart, hcases⟩ := List.forall_mem_cons.mp hcases
    have hkeeps := keeps_arm hB harm ⟨hordered, hstart, hheader⟩
    obtain ⟨hfaithful, hvisits, hlast⟩ := ih hkeeps.ordered
      (fun c hc => (hcases c hc).mono hkeeps.subset)
      (fun y hy => (hheader y hy).mono hkeeps.subset)
    exact ⟨List.forall_mem_cons.mpr ⟨hkeeps.faithful, hfaithful⟩, hkeeps.visits.append hvisits,
      hlast⟩

/-- The nodes of a step out of a region hold no block. -/
theorem keeps_exit? (h : Ordered p V) {t : Node} (ht : r.exit? p.flow x = some t) :
    Keeps p V [t] V := by
  unfold Region.exit? at ht
  split at ht
  · cases ht
    exact .lone h ⟨rfl, rfl⟩ rfl
  split at ht
  · cases ht
    exact .lone h ⟨rfl, rfl⟩ rfl
  split at ht
  · cases ht
    exact .lone h ⟨rfl, rfl⟩ rfl
  · cases ht

theorem keeps_armExit? (h : Ordered p V) {t : Node} (ht : r.armExit? p.flow x = some t) :
    Keeps p V [t] V := by
  unfold Region.armExit? at ht
  split at ht
  · cases ht
  · exact keeps_exit? h ht

/-! ## Conditionals -/

/-- A conditional whose block was visited, and is held by the node before it. -/
theorem continues_conditional (hf : p.flow.Analysed) (hB : Counts p B) {head : Node} {c : Expr}
    {construct : Construct} (h : Conditional p B id head c x y r V construct V')
    (hending : p.flow.ending id = .cond x y) (hhead : Keeps p W [head] V)
    (hraw : Keeps p W [.raw (p.rawOf id .noJoin)] V) (hid : Passed p V id)
    (hheader : ∀ y, r.header = some y → HeaderKnown p V y) : Continues p W id construct V' := by
  have hordered := hhead.ordered
  have harms : (p.flow.ending id).arms? = some (x, y) := congrArg Ending.arms? hending
  obtain ⟨hx, hy⟩ := Ending.mem_of_arms? harms
  have hstarts {V₁ : BlockSet} {nodes : List Node} (hk : Keeps p V nodes V₁) (s : Option Nat)
      {z : Nat} (hz : z ∈ (p.flow.ending id).successors) : Starts p V₁ z { r with stop := s } :=
    ⟨hk.ordered, (hid.mono hk.subset).next hf hz, fun y hy => (hheader y hy).mono hk.subset⟩
  have hnil : Keeps p V [] V := .nil hordered
  have hnext {V₁ : BlockSet} (hsub : ∀ z ∈ V, z ∈ V₁) {z : Nat}
      (hz : z ∈ (p.flow.ending id).successors) : ∀ next, some z = some next → Known p V₁ next := by
    rintro _ ⟨⟩
    exact (hid.mono hsub).next hf hz
  cases h with
  | steps ht he =>
    exact ⟨hhead.cons ((keeps_armExit? hordered ht).ifElse (keeps_armExit? hordered he) _ _),
      hid.mem, nofun⟩
  | falseSteps ht he =>
    exact ⟨hhead.cons ((keeps_armExit? hordered he).ifElse hnil _ _), hid.mem,
      hnext (fun _ h => h) hx⟩
  | trueSteps ht he =>
    exact ⟨hhead.cons ((keeps_armExit? hordered ht).ifElse hnil _ _), hid.mem,
      hnext (fun _ h => h) hy⟩
  | @chained join last subject pattern cases tests bodies fallback V₁ _ ht he hjoin hholds hvalue
      hlinks hcases hfallback =>
    have htests := hlinks.visits hid.mem
    have hpassed := hid.mono htests.subset
    obtain ⟨htest, hcase, hlast⟩ := hlinks.known hf
      (fun t ht => (htests.mem t).mpr (.inr ht)) hpassed hy
    have hordered' := hordered.of_known hf htests.subset
      fun z hz => ((htests.mem z).mp hz).imp_right (htest z)
    obtain ⟨hfaithful, hbodies, hordered₁⟩ := keeps_arms hB hcases hordered'
      (List.forall_mem_cons.mpr ⟨hpassed.next hf hx, hcase⟩)
      (fun y hy => (hheader y hy).mono htests.subset)
    have hsub : ∀ z ∈ V, z ∈ V₁ := fun z hz => hbodies.subset z (htests.subset z hz)
    have hkeeps := keeps_fallback hB hfallback
      ⟨hordered₁, hlast.mono hbodies.subset, fun y hy => (hheader y hy).mono hsub⟩
    have hlater := hid.mono fun z hz => hkeeps.subset z (hsub z hz)
    refine ⟨hhead.cons (.matching htests hfaithful hbodies hkeeps (some id)), hlater.mem, ?_⟩
    rintro _ ⟨⟩
    exact hlater.join hf hjoin
  | meets ht he hjoin hexit hinside htrue hfalse =>
    have ha := keeps_arm hB htrue (hstarts hnil _ hx)
    have hb := keeps_arm hB hfalse (hstarts ha _ hy)
    have hlater := hid.mono (ha.append hb).subset
    refine ⟨hhead.cons ((ha.ifElseOf hb id c).continueEarly r id _), hlater.mem, ?_⟩
    rintro _ ⟨⟩
    exact hlater.join hf hjoin
  | falseDeparts ht he _ hleaves hbody =>
    have hb := (hB _ _ _ _ _ _ hbody (hstarts hnil _ hy)).1
    exact ⟨hhead.cons (hb.ifElse (.nil hb.ordered) _ _), hb.subset id hid.mem, hnext hb.subset hx⟩
  | trueDeparts ht he _ hleaves hbody =>
    have hb := (hB _ _ _ _ _ _ hbody (hstarts hnil _ hx)).1
    exact ⟨hhead.cons (hb.ifElse (.nil hb.ordered) _ _), hb.subset id hid.mem, hnext hb.subset hy⟩
  | meetsAtEnd ht he hjoin htrue hfalse =>
    have ha := keeps_arm hB htrue (hstarts hnil _ hx)
    have hb := keeps_arm hB hfalse (hstarts ha _ hy)
    refine ⟨hhead.cons (ha.ifElseOf hb id c), (ha.append hb).subset id hid.mem, ?_⟩
    rintro _ ⟨⟩
    exact known_exit hf _
  | noJoin =>
    rw [BlockSet.insert_of_mem hid.mem]
    exact ⟨hraw, hid.mem, nofun⟩

/-! ## Loops and iterations -/

/-- What is known of a block that a body enters. -/
structure Entered (p : Plan) (V : BlockSet) (id : Nat) : Prop where
  reach : id ∈ p.flow.reachable
  fresh : id ∉ V
  ordered : Ordered p V
  known : Known p V id

namespace Entered

theorem ordered_insert (hf : p.flow.Analysed) (h : Entered p V id) : Ordered p (V.insert id) :=
  h.ordered.insert hf h.known

theorem raw (hf : p.flow.Analysed) (h : Entered p V id) (reason : RawReason) :
    Keeps p V [.raw (p.rawOf id reason)] (V.insert id) :=
  .raw h.fresh (h.ordered_insert hf) reason

theorem block (hf : p.flow.Analysed) (h : Entered p V id) (statements : List Stmt) :
    Keeps p V [.block (p.blockNode id statements)] (V.insert id) :=
  .block h.fresh (h.ordered_insert hf) statements

theorem passed (h : Entered p V id) (hsub : ∀ z ∈ V, z ∈ W) (hid : id ∈ W)
    (hheader : HeaderKnown p W id) : Passed p W id :=
  ⟨h.reach, hid, h.known.mono hsub, hheader⟩

end Entered

/-- A loop holds its header, which is visited first. -/
theorem continues_looped (hf : p.flow.Analysed) (hB : Counts p B) {l : Loop}
    (hl : p.flow.loopAt? id = some l) (he : Entered p V id) {construct : Construct}
    (h : Looped p B l V construct V') : Continues p V id construct V' := by
  have hid : l.header = id := Flow.Analysed.loopAt?_header hl
  subst hid
  cases h with
  | irreducible => exact ⟨he.raw hf _, mem_insert_self V _, nofun⟩
  | @endless body _ hregular hbody =>
    have hheader (y : Nat) (hy : some l.header = some y) : HeaderKnown p V y := by
      cases hy
      exact headerKnown_of_regular hl hregular
    obtain ⟨hkeeps, hmem⟩ := hB _ _ _ _ _ _ hbody ⟨he.ordered, he.known, hheader⟩
    have hpassed := he.passed hkeeps.subset (hmem rfl) (headerKnown_of_regular hl hregular)
    have hreducible : l.reducible = true := by
      unfold irregular at hregular
      simpa using (Bool.or_eq_false_iff.mp hregular).1
    exact ⟨hkeeps.stripNextTurn.endless _, hmem rfl, fun next => hpassed.loopExit hf hl hreducible⟩
  | @tested lifted c condition x y start exit body _ hregular hending _ _ _ _ hgoes hbody =>
    have hpassed := he.passed (subset_insert V _) (mem_insert_self V _)
      (headerKnown_of_regular hl hregular)
    have harms : (p.flow.ending l.header).arms? = some (x, y) := congrArg Ending.arms? hending
    obtain ⟨hx, hy⟩ := Ending.mem_of_arms? harms
    have hboth : start ∈ (p.flow.ending l.header).successors ∧
        exit ∈ (p.flow.ending l.header).successors := by
      cases hgoes with
      | whenTrue => exact ⟨hx, hy⟩
      | whenFalse => exact ⟨hy, hx⟩
    have hheader (y : Nat) (hy : some l.header = some y) :
        HeaderKnown p (V.insert l.header) y := by
      cases hy
      exact headerKnown_of_regular hl hregular
    have hkeeps := keeps_arm hB hbody ⟨he.ordered_insert hf, hpassed.next hf hboth.1, hheader⟩
    refine ⟨.tested he.fresh hkeeps.stripNextTurn _, hkeeps.subset _ (mem_insert_self V _), ?_⟩
    rintro _ ⟨⟩
    exact (hpassed.mono hkeeps.subset).next hf hboth.2

/-- An iteration holds its beginning and its latch, which are visited first. -/
theorem continues_iterated (hf : p.flow.Analysed) (hB : Counts p B) {body exit : Nat}
    (he : Entered p V id) (hheader : HeaderKnown p (V.insert id) id)
    (hending : p.flow.ending id = .iterBegin body exit) {construct : Construct}
    (h : Iterated p B id body exit V construct V') : Continues p V id construct V' := by
  cases h with
  | noAdvance => exact ⟨he.raw hf _, mem_insert_self V _, nofun⟩
  | notLifted => exact ⟨he.raw hf _, mem_insert_self V _, nofun⟩
  | @turns l latch _ _ _ _ _ nodes _ hadvance hout _ _ _ _ hbody =>
    have hnext : body = id + 1 := hf.proper.element id body exit hending
    subst hnext
    have hit : Iterates p id exit l latch :=
      ⟨he.reach, hending, advances_of_advance? hadvance⟩
    have hpassed := he.passed (subset_insert V id) (mem_insert_self V id) hheader
    have hsub := subset_insert (V.insert id) latch
    have hne : latch ≠ id := by
      rintro rfl
      have hin : l.body.contains latch = true := hf.latch_mem hit.advances.loop hit.latch_mem
      rw [hin] at hout
      cases hout
    have hfresh : latch ∉ V.insert id ∨ p.flow.Sidestepped latch := by
      by_cases hlatch : latch ∈ V
      · exact .inr ((he.ordered id exit l latch hit hlatch).resolve_left he.fresh)
      · refine .inl fun hmem => ?_
        exact (BlockSet.mem_insert.mp hmem).elim hlatch hne
    have hordered := (he.ordered_insert hf).insert_latch hit (mem_insert_self V id)
    have hstarts : Starts p ((V.insert id).insert latch) (id + 1)
        (iterationRegion p l (id + 1) exit latch) := by
      refine ⟨hordered, (hpassed.mono hsub).next hf (hit.successors_setup.mpr (.inl rfl)), ?_⟩
      rintro _ ⟨⟩ id' exit' l' latch' _ heq
      cases heq
      exact hsub id (mem_insert_self V id)
    have hkeeps := keeps_arm hB hbody hstarts
    have hall : ∀ z ∈ V.insert id, z ∈ V' := fun z hz => hkeeps.subset z (hsub z hz)
    refine ⟨.forLoop he.fresh hfresh hkeeps.stripNextTurn _ _ _, hall id (mem_insert_self V id), ?_⟩
    rintro _ ⟨⟩
    exact (hpassed.mono hall).next hf (hit.successors_setup.mpr (.inr rfl))

/-! ## Every block -/

theorem continues_plain (hf : p.flow.Analysed) (hB : Counts p B) (he : Entered p V id)
    (hpassed : Passed p (V.insert id) id)
    (hheader : ∀ y, r.header = some y → HeaderKnown p (V.insert id) y) {construct : Construct}
    (h : Plain p B id r (V.insert id) construct V') : Continues p V id construct V' := by
  cases h with
  | notLifted =>
    rw [BlockSet.insert_of_mem (mem_insert_self V id)]
    exact ⟨he.raw hf _, mem_insert_self V id,
      fun next hnext => hpassed.next hf (mem_of_afterRaw hnext)⟩
  | conditional _ _ hending hc =>
    exact continues_conditional hf hB hc hending (he.block hf _) (he.raw hf _) hpassed hheader
  | ret _ hending =>
    exact ⟨(he.block hf _).cons (.lone (he.ordered_insert hf) ⟨rfl, rfl⟩ rfl), mem_insert_self V id,
      nofun⟩
  | @straight l t _ hending =>
    refine ⟨he.block hf _, mem_insert_self V id, ?_⟩
    rintro _ ⟨⟩
    refine hpassed.next hf ?_
    rcases hending with hending | hending <;> rw [hending] <;> exact List.mem_singleton_self t

/-- The construct at a block. -/
theorem continues_made (hf : p.flow.Analysed) (hB : Counts p B) (he : Entered p V id)
    (hheader : ∀ y, r.header = some y → HeaderKnown p V y) {construct : Construct}
    (h : Made p B id r V construct V') : Continues p V id construct V' := by
  have hinsert (y : Nat) (hy : r.header = some y) : HeaderKnown p (V.insert id) y :=
    (hheader y hy).mono (subset_insert V id)
  -- A block that is built for itself is no header, or that of the region.
  have halone (h : Alone p id r) : HeaderKnown p (V.insert id) id := by
    cases hl : p.flow.loopAt? id with
    | none => exact headerKnown_of_none hl
    | some l => exact hinsert id (h l hl)
  have hpassed (h : Alone p id r) : Passed p (V.insert id) id :=
    he.passed (subset_insert V id) (mem_insert_self V id) (halone h)
  cases h with
  | loop hl _ h => exact continues_looped hf hB hl he h
  | iteration h hending hi => exact continues_iterated hf hB he (halone h) hending hi
  | strayAdvance => exact ⟨he.raw hf _, mem_insert_self V id, nofun⟩
  | plain h hplain => exact continues_plain hf hB he (hpassed h) hinsert hplain

/-! ## Bodies -/

theorem counts_onwards (hf : p.flow.Analysed) (hB : Counts p B) : Counts p (Onwards p B) := by
  intro entering start r V nodes V' h hs
  have hentered (he : Enters p entering start r V) : Entered p V start :=
    ⟨he.reach, he.fresh, hs.ordered, hs.known⟩
  cases h with
  | ends h =>
    refine ⟨?_, nofun⟩
    obtain ⟨-, rfl⟩ | ⟨-, n, hn, rfl⟩ := ends_of_onward h
    · exact .nil hs.ordered
    · exact keeps_exit? hs.ordered hn
  | jumps => exact ⟨.lone hs.ordered ⟨rfl, rfl⟩ rfl, nofun⟩
  | stops henters hmade =>
    have hcontinues := continues_made hf hB (hentered henters) hs.header hmade
    exact ⟨hcontinues.keeps, fun _ => hcontinues.visited⟩
  | goesOn henters hmade hrest =>
    have hcontinues := continues_made hf hB (hentered henters) hs.header hmade
    have hkeeps := hcontinues.keeps
    have hlater := (hB _ _ _ _ _ _ hrest ⟨hkeeps.ordered, hcontinues.next _ rfl,
      fun y hy => (hs.header y hy).mono hkeeps.subset⟩).1
    exact ⟨hkeeps.append hlater, fun _ => hlater.subset start hcontinues.visited⟩

/-- **Every body** holds what it visits. -/
theorem counts_derived (hf : p.flow.Analysed) (fuel : Nat) : Counts p (Derived p fuel) := by
  induction fuel with
  | zero => exact fun _ _ _ _ _ _ h => h.elim
  | succ fuel ih => exact counts_onwards hf ih

/-- The nodes that the walk builds hold what it visits. -/
theorem keeps_walked (hf : p.flow.Analysed) {nodes : List Node} (h : Walked p nodes V) :
    Keeps p .empty nodes V :=
  (counts_derived hf _ _ _ _ _ _ _ h ⟨ordered_empty p, known_zero hf _, nofun⟩).1

end Unscript.Structuring
