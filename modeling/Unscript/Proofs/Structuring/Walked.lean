import Unscript.Proofs.Flow.Analysis
import Unscript.Proofs.Structuring.Derivation

/-!
# The walk builds trees

Every part of the walk builds what the derivations say, and the walk stays within its budget: a
block is visited only once, and no block takes more than two steps.

* `Structuring.load`: the steps taken and those that the blocks still take.
* `Structuring.Builds`: a function that builds bodies builds derived ones.

Results:
* `Structuring.does_build`: the construct at a block.
* `Structuring.builds_body`: the bodies of the walk are derived.
-/

namespace Unscript.Structuring

/-! ## The load -/

/-- The steps taken and those that the blocks not visited may still take. -/
def load (p : Plan) (V : BlockSet) (n : Nat) : Nat :=
  n + 2 * ((List.range p.flow.exit).filter (· ∉ V)).length

variable {p : Plan} {V : BlockSet} {n id : Nat}

theorem filter_insert_le (p : Plan) (V : BlockSet) (id : Nat) :
    ((List.range p.flow.exit).filter (· ∉ V.insert id)).length ≤
      ((List.range p.flow.exit).filter (· ∉ V)).length := by
  refine (List.monotone_filter_right _ fun i => ?_).length_le
  simp only [decide_eq_true_eq, BlockSet.mem_insert, not_or]
  exact fun h => h.1

theorem load_insert_le (p : Plan) (V : BlockSet) (n id : Nat) :
    load p (V.insert id) n ≤ load p V n := by
  have := filter_insert_le p V id
  unfold load
  omega

/-- A block that was not visited gives up two steps. -/
theorem load_insert (hid : id < p.flow.exit) (hfresh : id ∉ V) :
    load p (V.insert id) n + 2 ≤ load p V n := by
  have hlt : ((List.range p.flow.exit).filter (· ∉ V.insert id)).length <
      ((List.range p.flow.exit).filter (· ∉ V)).length := by
    have hfilter : (List.range p.flow.exit).filter (· ∉ V.insert id) =
        ((List.range p.flow.exit).filter (· ∉ V)).filter (· ≠ id) := by
      rw [List.filter_filter]
      refine List.filter_congr fun i _ => ?_
      simp only [BlockSet.mem_insert, not_or, Bool.decide_and]
      exact Bool.and_comm _ _
    rw [hfilter]
    refine List.length_filter_lt_length_iff_exists.mpr ⟨id, ?_, by simp⟩
    exact List.mem_filter.mpr ⟨List.mem_range.mpr hid, by simpa using hfresh⟩
  unfold load
  omega

/-- Later visited blocks and steps, with no more load. -/
structure Saves (p : Plan) (V : BlockSet) (n : Nat) (V' : BlockSet) (n' : Nat) : Prop where
  load : load p V' n' ≤ load p V n
  steps : n ≤ n'

theorem Saves.refl (p : Plan) (V : BlockSet) (n : Nat) : Saves p V n V n :=
  ⟨Nat.le_refl _, Nat.le_refl _⟩

theorem Saves.trans {V₁ V₂ : BlockSet} {n₁ n₂ : Nat} (h : Saves p V n V₁ n₁)
    (h' : Saves p V₁ n₁ V₂ n₂) : Saves p V n V₂ n₂ :=
  ⟨Nat.le_trans h'.load h.load, Nat.le_trans h.steps h'.steps⟩

theorem saves_insert (p : Plan) (V : BlockSet) (n id : Nat) : Saves p V n (V.insert id) n :=
  ⟨load_insert_le p V n id, Nat.le_refl _⟩

/-- Room for bodies: the load is small and some steps are taken. -/
structure Room (p : Plan) (least : Nat) (V : BlockSet) (n : Nat) : Prop where
  load : load p V n ≤ 2 * p.flow.exit
  steps : least ≤ n

variable {least : Nat} {V' : BlockSet} {n' : Nat}

theorem Room.later (h : Room p least V n) (hs : Saves p V n V' n') : Room p least V' n' :=
  ⟨Nat.le_trans hs.load h.load, Nat.le_trans h.steps hs.steps⟩

/-- A function that builds bodies builds derived ones. A body that is entered takes a step before
its block is visited, and gives it back. -/
structure Builds (p : Plan) (build : BuildBody) (B : Bodies) (least : Nat) : Prop where
  plain : ∀ start r V n, start ∈ p.flow.reachable → Room p least V n →
    Does p (build false start r) V n fun nodes V' n' => B false start r V nodes V' ∧
      Saves p V n V' n'
  entering : ∀ start r V n, start ∈ p.flow.reachable → start < p.flow.exit → start ∉ V →
    r.header = some start → load p V n ≤ 2 * p.flow.exit + 1 → least ≤ n →
    Does p (build true start r) V n fun nodes V' n' => B true start r V nodes V' ∧
      load p V' n' + 1 ≤ load p V n ∧ n ≤ n'

/-! ## Arms -/

variable {build : BuildBody} {B : Bodies} {r : Region} {start join : Nat}

theorem does_body (hb : Builds p build B least) (hroom : Room p least V n)
    (hstart : start ∈ p.flow.reachable) {Q : List Node → BlockSet → Nat → Prop}
    (h : ∀ nodes V' n', B false start r V nodes V' → Saves p V n V' n' → Q nodes V' n') :
    Does p (build false start r) V n Q :=
  (hb.plain start r V n hstart hroom).mono fun nodes V' n' hq => h nodes V' n' hq.1 hq.2

theorem does_arm (hb : Builds p build B least) (hroom : Room p least V n)
    (hstart : start ∈ p.flow.reachable) {Q : List Node → BlockSet → Nat → Prop}
    (h : ∀ nodes V' n', Arm B { r with stop := some join } start join V nodes V' →
      Saves p V n V' n' → Q nodes V' n') :
    Does p (Construct.arm build r start join) V n Q := by
  unfold Construct.arm
  split
  · rename_i heq
    exact does_pure (h [] V n (.empty heq) (.refl p V n))
  · rename_i hne
    exact does_body hb hroom hstart fun nodes V' n' hbody hs => h nodes V' n' (.body hne hbody) hs

/-- An arm with what follows it. -/
theorem does_arm_bind (hb : Builds p build B least) (hroom : Room p least V n)
    (hstart : start ∈ p.flow.reachable) {α : Type} {k : List Node → Structuring α}
    {Q : α → BlockSet → Nat → Prop}
    (h : ∀ nodes V' n', Arm B r start join V nodes V' → Saves p V n V' n' →
      Does p (k nodes) V' n' Q) :
    Does p (if start = join then pure [] >>= k else build false start r >>= k) V n Q := by
  split
  · rename_i heq
    exact .bind (does_pure (h [] V n (.empty heq) (.refl p V n)))
  · rename_i hne
    exact .bind (does_body hb hroom hstart fun nodes V' n' hbody hs =>
      h nodes V' n' (.body hne hbody) hs)

theorem does_arms (hb : Builds p build B least) (hroom : Room p least V n)
    {cases : List (Expr × Nat)} (hcases : ∀ c ∈ cases, c.2 ∈ p.flow.reachable)
    {Q : List (Expr × List Node) → BlockSet → Nat → Prop}
    (h : ∀ bodies V' n', Arms B { r with stop := some join } join cases V bodies V' →
      Saves p V n V' n' → Q bodies V' n') :
    Does p (cases.mapM fun (pattern, start) => do
      return (pattern, ← Construct.arm build r start join)) V n Q := by
  induction cases generalizing V n Q with
  | nil => exact does_pure (h [] V n (.nil V) (.refl p V n))
  | cons c cases ih =>
    obtain ⟨hc, hcases⟩ := List.forall_mem_cons.mp hcases
    rw [List.mapM_cons]
    refine .bind (.bind (does_arm hb hroom hc fun nodes V₁ n₁ harm hs₁ => ?_))
    refine does_pure (.bind (ih (hroom.later hs₁) hcases fun bodies V₂ n₂ harms hs₂ => ?_))
    exact does_pure (h _ V₂ n₂ (.cons harm harms) (hs₁.trans hs₂))

theorem does_ifElse (hb : Builds p build B least) (hroom : Room p least V n) {c : Expr}
    {x y : Nat} (hx : x ∈ p.flow.reachable) (hy : y ∈ p.flow.reachable)
    {Q : Node → BlockSet → Nat → Prop}
    (h : ∀ whenTrue whenFalse V₁ V₂ n', Arm B { r with stop := some join } x join V whenTrue V₁ →
      Arm B { r with stop := some join } y join V₁ whenFalse V₂ → Saves p V n V₂ n' →
      Q (ifElseOf id c whenTrue whenFalse) V₂ n') :
    Does p (Construct.ifElse build id c (x, y) join r) V n Q := by
  refine .bind (does_arm hb hroom hx fun whenTrue V₁ n₁ htrue hs₁ => ?_)
  refine .bind (does_arm hb (hroom.later hs₁) hy fun whenFalse V₂ n₂ hfalse hs₂ => ?_)
  exact does_pure (h whenTrue whenFalse V₁ V₂ n₂ htrue hfalse (hs₁.trans hs₂))

/-! ## Chains -/

variable {sc : Chain.Scope} {current : Nat}

theorem does_pattern? {Q : Option Expr → BlockSet → Nat → Prop} (hnone : Q none V n)
    (hsome : ∀ l pattern, Chain.canFollow p sc V current id = true → p.lift id = .ok l →
      l.isPureTest = true → l.residue = 0 →
      l.value.bind Expr.comparison? = some (sc.subject, pattern) → Q (some pattern) V n) :
    Does p (Chain.pattern? p sc current id) V n Q := by
  refine does_get fun w hw => ?_
  rw [hw.visited]
  split
  · exact does_pure hnone
  rename_i hcan
  refine .bind (does_lift? fun l hl => ?_)
  split
  · exact does_pure hnone
  rename_i l
  split
  · exact does_pure hnone
  rename_i hpure
  split
  · rename_i subject pattern hcomparison
    split
    · rename_i hsubject
      rw [hsubject] at hcomparison
      have hboth : l.isPureTest = true ∧ l.residue = 0 := by simpa using hpure
      exact does_pure (hsome l pattern (by simpa using hcan) hl hboth.1 hboth.2 hcomparison)
    · exact does_pure hnone
  · exact does_pure hnone

/-- A chain is extended by linked comparisons. -/
theorem does_extend (hf : p.flow.Analysed) {fuel : Nat} {c : Chain}
    (hc : c.fallback ∈ p.flow.reachable) {Q : Chain → BlockSet → Nat → Prop}
    (h : ∀ cases tests last, Links p sc V current c.fallback cases tests last →
      last ∈ p.flow.reachable → (∀ x ∈ cases, x.2 ∈ p.flow.reachable) →
      Q ⟨c.cases ++ cases, c.tests ++ tests, last⟩ V n) :
    Does p (Chain.extend p sc fuel current c) V n Q := by
  have hend {current : Nat} {c : Chain} (hc : c.fallback ∈ p.flow.reachable)
      (h : ∀ cases tests last, Links p sc V current c.fallback cases tests last →
        last ∈ p.flow.reachable → (∀ x ∈ cases, x.2 ∈ p.flow.reachable) →
        Q ⟨c.cases ++ cases, c.tests ++ tests, last⟩ V n) : Q c V n := by
    have hq := h [] [] c.fallback (.done current c.fallback) hc (by simp)
    rwa [List.append_nil, List.append_nil] at hq
  induction fuel generalizing current c with
  | zero => exact does_pure (hend hc h)
  | succ fuel ih =>
    refine .bind (does_pattern? ?_ fun l pattern hcan hlift hpure hresidue hvalue => ?_)
    · exact does_pure (hend hc h)
    split
    · rename_i pattern' a b hpattern harms
      cases hpattern
      obtain ⟨ha, hb⟩ := Ending.mem_of_arms? harms
      refine ih (hf.next_mem hc hb) fun cases tests last hlinks hlast hcases => ?_
      have hq := h ((pattern, a) :: cases) (c.fallback :: tests) last
        (.link hcan hlift hpure hresidue hvalue harms hlinks) hlast
        (List.forall_mem_cons.mpr ⟨hf.next_mem hc ha, hcases⟩)
      rwa [← List.append_cons, ← List.append_cons]
    · exact does_pure (hend hc h)

/-- A chain that begins at a conditional compares the value that the conditional tests. It is found
only in a dialect with matches, and if it has enough cases. -/
theorem does_chain (hf : p.flow.Analysed) {l : Lifted} {c : Expr} {x y : Nat}
    (hid : id ∈ p.flow.reachable) (hvalue : l.value = some c)
    (hending : p.flow.ending id = .cond x y)
    {Q : Option (Expr × Chain) → BlockSet → Nat → Prop} (hnone : Q none V n)
    (hsome : ∀ join subject pattern cases tests last, p.flow.join? id = some join →
      r.holds p.flow join = true → c.comparison? = some (subject, pattern) →
      Links p ⟨subject, join, r⟩ V id y cases tests last → last ∈ p.flow.reachable →
      (∀ z ∈ cases, z.2 ∈ p.flow.reachable) → p.dialect.supports "match" = true →
      p.options.minCases ≤ cases.length + 1 →
      Q (some (subject, ⟨(pattern, x) :: cases, tests, last⟩)) V n) :
    Does p (Chain.of? p id l r) V n Q := by
  have hy : y ∈ p.flow.reachable := by
    refine hf.next_mem hid (Ending.mem_of_arms? (a := x) ?_).2
    rw [hending]
    rfl
  unfold Chain.of?
  split
  · rename_i join subject pattern whenTrue whenFalse hjoin hcomparison harms
    rw [hending] at harms
    cases harms
    rw [hvalue] at hcomparison
    have hcompared : c.comparison? = some (subject, pattern) := hcomparison
    split
    · exact does_pure hnone
    · rename_i hsuits
      have hholds : r.holds p.flow join = true := by
        by_contra hno
        simp [hno] at hsuits
      have hmatch : p.dialect.supports "match" = true := by
        by_contra hno
        simp [hno] at hsuits
      refine .bind (does_extend hf hy fun cases tests last hlinks hlast hcases => ?_)
      split
      · exact does_pure hnone
      · rename_i hmin
        exact does_pure (hsome join subject pattern cases tests last hjoin hholds hcompared hlinks
          hlast hcases hmatch (Nat.not_lt.mp hmin))
  · exact does_pure hnone

/-! ## Conditionals -/

theorem does_visitAll {tests : List Nat} {Q : Unit → BlockSet → Nat → Prop}
    (h : Saves p V n (tests.foldl BlockSet.insert V) n →
      Q () (tests.foldl BlockSet.insert V) n) :
    Does p (forIn tests () fun test _ => do
      visit test
      return ForInStep.yield ()) V n Q := by
  induction tests generalizing V with
  | nil => exact does_pure (h (.refl p V n))
  | cons t tests ih =>
    rw [List.forIn_cons]
    refine .bind (.bind (does_visit (does_pure (ih fun hs => ?_))))
    exact h ((saves_insert p V n t).trans hs)

theorem does_matching (hb : Builds p build B least) (hroom : Room p least V n) {subject : Expr}
    {c : Chain} (hcases : ∀ x ∈ c.cases, x.2 ∈ p.flow.reachable)
    (hlast : c.fallback ∈ p.flow.reachable) {Q : Node → BlockSet → Nat → Prop}
    (h : ∀ bodies fallback V₁ V₂ n', Arms B { r with stop := some join } join c.cases
        (c.tests.foldl BlockSet.insert V) bodies V₁ →
      Fallback B { r with stop := some join } c.fallback join V₁ fallback V₂ →
      Saves p V n V₂ n' →
      Q (.matching (some id) subject bodies fallback (c.tests.map (p.blockNode ·))) V₂ n') :
    Does p (Construct.matching p build id subject c join r) V n Q := by
  refine .bind (does_visitAll fun hs => ?_)
  refine .bind (does_arms hb (hroom.later hs) hcases fun bodies V₁ n₁ harms hs₁ => ?_)
  split
  · rename_i heq
    exact .bind (does_pure (does_pure
      (h bodies none V₁ V₁ n₁ harms (.absent heq) (hs.trans hs₁))))
  · rename_i hne
    refine .bind (does_map (does_body hb ((hroom.later hs).later hs₁) hlast
      fun nodes V₂ n₂ hbody hs₂ => ?_))
    exact does_pure (h bodies (some nodes) V₁ V₂ n₂ harms (.present hne hbody)
      ((hs.trans hs₁).trans hs₂))

/-- What the construct of a conditional is: derived, and the walk goes on at a reachable block. -/
def Goal (p : Plan) (V : BlockSet) (n : Nat) (D : Construct → BlockSet → Prop) (c : Construct)
    (V' : BlockSet) (n' : Nat) : Prop :=
  D c V' ∧ (∀ next, c.2 = some next → next ∈ p.flow.reachable) ∧ Saves p V n V' n'

theorem does_divergent (hf : p.flow.Analysed) (hb : Builds p build B least)
    (hroom : Room p least V n) {head : Node} {c : Expr} {x y : Nat}
    (hx : x ∈ p.flow.reachable) (hy : y ∈ p.flow.reachable)
    (ht : r.armExit? p.flow x = none) (he : r.armExit? p.flow y = none)
    (houtside : MeetsOutside p r id) :
    Does p (Construct.divergent p build id head c (x, y) r) V n
      (Goal p V n (Conditional p B id head c x y r V)) := by
  refine does_get fun w hw => ?_
  dsimp only
  rw [hw.visited]
  split
  · rename_i hleaves
    refine .bind (does_body hb hroom hy fun body V' n' hbody hs => does_pure ?_)
    exact ⟨.falseDeparts ht he houtside hleaves hbody, by rintro _ ⟨⟩; exact hx, hs⟩
  split
  · rename_i hleaves
    refine .bind (does_body hb hroom hx fun body V' n' hbody hs => does_pure ?_)
    exact ⟨.trueDeparts ht he houtside hleaves hbody, by rintro _ ⟨⟩; exact hy, hs⟩
  split
  · rename_i hjoin
    refine .bind (does_ifElse hb hroom hx hy fun whenTrue whenFalse V₁ V₂ n' htrue hfalse hs =>
      does_pure ?_)
    exact ⟨.meetsAtEnd ht he hjoin htrue hfalse, by rintro _ ⟨⟩; exact hf.exit_mem, hs⟩
  · refine .bind (does_note (.bind (does_raw (does_pure ?_))))
    exact ⟨.noJoin ht he, by rintro _ ⟨⟩, saves_insert p V n id⟩

theorem does_conditional (hf : p.flow.Analysed) (hb : Builds p build B least)
    (hroom : Room p least V n) {l : Lifted} {x y : Nat} (hid : id ∈ p.flow.reachable)
    (hlift : p.lift id = .ok l) (hending : p.flow.ending id = .cond x y) :
    Does p (Construct.conditional p build id l (x, y) r) V n
      (Goal p V n fun construct V' => ∃ c, l.value = some c ∧
        Conditional p B id (.block (p.blockNode id l.statements)) c x y r V construct V') := by
  have harms : (p.flow.ending id).arms? = some (x, y) := by
    rw [hending]
    rfl
  have hx := hf.next_mem hid (Ending.mem_of_arms? harms).1
  have hy := hf.next_mem hid (Ending.mem_of_arms? harms).2
  have hfit (hp : p.Answers) : l.value.isSome :=
    hp.value id l hlift (.inl (by rw [hending]; rfl))
  refine .bind (does_needed hfit fun c hvalue => ?_)
  dsimp only
  split
  · rename_i t e ht he
    exact does_pure ⟨⟨c, hvalue, .steps ht he⟩, by rintro _ ⟨⟩, .refl p V n⟩
  · rename_i e ht he
    exact does_pure ⟨⟨c, hvalue, .falseSteps ht he⟩, by rintro _ ⟨⟩; exact hx, .refl p V n⟩
  · rename_i t ht he
    exact does_pure ⟨⟨c, hvalue, .trueSteps ht he⟩, by rintro _ ⟨⟩; exact hy, .refl p V n⟩
  rename_i ht he
  have hdivergent (houtside : MeetsOutside p r id) :
      Does p (Construct.divergent p build id (.block (p.blockNode id l.statements)) c (x, y) r) V n
        (Goal p V n fun construct V' => ∃ c, l.value = some c ∧
          Conditional p B id (.block (p.blockNode id l.statements)) c x y r V construct V') :=
    (does_divergent hf hb hroom hx hy ht he houtside).mono fun _ _ _ hq =>
      ⟨⟨c, hvalue, hq.1⟩, hq.2⟩
  refine .bind (does_chain hf hid hvalue hending ?_ ?_)
  · split
    · rename_i hnone
      cases hnone
    · rename_i join hjoin _
      split
      · rename_i hinside
        have hboth : join ≠ p.flow.exit ∧ r.joinsInside p.flow join = true := by simpa using hinside
        refine .bind (does_ifElse hb hroom hx hy fun whenTrue whenFalse V₁ V₂ n' htrue hfalse hs =>
          does_pure ?_)
        exact ⟨⟨c, hvalue, .meets ht he hjoin hboth.1 hboth.2 htrue hfalse⟩,
          by rintro _ ⟨⟩; exact hf.join?_mem hjoin, hs⟩
      · rename_i hinside
        refine hdivergent fun other hother => ?_
        rw [hjoin] at hother
        cases hother
        simpa [Decidable.or_iff_not_imp_left] using hinside
    · rename_i hjoin
      refine hdivergent fun join hother => ?_
      rw [hjoin] at hother
      cases hother
  · intro join subject pattern cases tests last hjoin hholds hcompared hlinks hlast hcases hmatch hmin
    have hall : ∀ z ∈ (pattern, x) :: cases, z.2 ∈ p.flow.reachable :=
      List.forall_mem_cons.mpr ⟨hx, hcases⟩
    rw [hjoin]
    refine .bind (does_matching hb hroom hall hlast
      fun bodies fallback V₁ V₂ n' hbodies hfallback hs => does_pure ?_)
    exact ⟨⟨c, hvalue, .chained ht he hjoin hholds hcompared hlinks hbodies hfallback hmatch hmin⟩,
      by rintro _ ⟨⟩; exact hf.join?_mem hjoin, hs⟩

/-! ## Loops -/

/-- The test of a loop at its header. -/
inductive Tests (p : Plan) (l : Loop) (lifted : Lifted) : Expr × Nat × Nat → Prop
  | intro {c condition : Expr} {x y start exit : Nat} (hending : p.flow.ending l.header = .cond x y)
    (hstatements : lifted.statements = []) (hresidue : lifted.residue = 0)
    (hvalue : lifted.value = some c) (hgoes : Goes l c x y condition start exit) :
    Tests p l lifted (condition, start, exit)

theorem does_loopTest? {l : Loop} {lifted : Option Lifted} (hlifted : Lifts p l.header lifted)
    {Q : Option (Expr × Nat × Nat) → BlockSet → Nat → Prop} (hnone : Q none V n)
    (hsome : ∀ a t, p.lift l.header = .ok a → Tests p l a t → Q (some t) V n) :
    Does p (Construct.loopTest? p l lifted) V n Q := by
  unfold Construct.loopTest?
  split
  · rename_i x y lifted hending
    have hfit (hp : p.Answers) : lifted.value.isSome :=
      hp.value l.header lifted hlifted (.inl (by rw [hending]; rfl))
    split
    · exact does_pure hnone
    rename_i hpure
    obtain ⟨hstatements, hresidue⟩ : lifted.statements = [] ∧ lifted.residue = 0 := by
      simpa using hpure
    split
    · rename_i hx hy
      refine .bind (does_needed hfit fun c hvalue => does_pure ?_)
      exact hsome lifted _ hlifted ⟨hending, hstatements, hresidue, hvalue, .whenTrue hx hy⟩
    · rename_i hx hy
      refine .bind (does_needed hfit fun c hvalue => does_pure ?_)
      exact hsome lifted _ hlifted ⟨hending, hstatements, hresidue, hvalue, .whenFalse hx hy⟩
    · exact does_pure hnone
  · exact does_pure hnone

theorem does_endless (hf : p.flow.Analysed) (hb : Builds p build B least) {l : Loop}
    (hl : p.flow.loopAt? id = some l) (hreach : id ∈ p.flow.reachable) (hreal : id < p.flow.exit)
    (hfresh : id ∉ V) (hload : load p V n ≤ 2 * p.flow.exit) (hsteps : least ≤ n + 1)
    (h : irregular p l = false) :
    Does p (Construct.endless p build l) V (n + 1) fun c V' n' =>
      Goal p V n (Looped p B l V) c V' n' ∧ n < n' := by
  have hid : l.header = id := Flow.Analysed.loopAt?_header hl
  have hmore : load p V (n + 1) = load p V n + 1 := by
    unfold load
    omega
  refine .bind ?_
  refine (hb.entering l.header _ V (n + 1) (hid ▸ hreach) (hid ▸ hreal) (hid ▸ hfresh) rfl
    (by omega) hsteps).mono fun body V' n' hq => does_pure ?_
  obtain ⟨hbody, hload', hsteps'⟩ := hq
  exact ⟨⟨.endless h hbody, fun next hnext => hf.loopExit?_mem hl hnext, by omega, by omega⟩, hsteps'⟩

theorem does_loop (hf : p.flow.Analysed) (hb : Builds p build B least) {l : Loop}
    (hl : p.flow.loopAt? id = some l) (hreach : id ∈ p.flow.reachable) (hreal : id < p.flow.exit)
    (hfresh : id ∉ V) (hload : load p V n ≤ 2 * p.flow.exit) (hsteps : least ≤ n + 1) :
    Does p (Construct.loop p build l) V (n + 1) fun c V' n' =>
      Goal p V n (Looped p B l V) c V' n' ∧ n < n' := by
  have hid : l.header = id := Flow.Analysed.loopAt?_header hl
  have hinsert : load p (V.insert l.header) (n + 1) + 1 ≤ load p V n := by
    have := load_insert (n := n + 1) (hid ▸ hreal) (hid ▸ hfresh : l.header ∉ V)
    unfold load at *
    omega
  have hsaves : Saves p V n (V.insert l.header) (n + 1) := ⟨by omega, Nat.le_succ n⟩
  unfold Construct.loop
  dsimp only
  split
  · rename_i hirregular
    refine .bind (does_note (.bind (does_raw (does_pure ?_))))
    exact ⟨⟨.irreducible hirregular, by rintro _ ⟨⟩, hsaves⟩, Nat.lt_succ_self n⟩
  rename_i hregular
  have hregular : irregular p l = false := Bool.eq_false_iff.mpr hregular
  have hendless := does_endless hf hb hl hreach hreal hfresh hload hsteps hregular
  refine .bind (does_lift? fun lifted hlifted => ?_)
  split
  · exact .bind (does_note hendless)
  refine .bind (does_loopTest? hlifted hendless fun a t ha ht => ?_)
  obtain ⟨hending, hstatements, hresidue, hvalue, hgoes⟩ := ht
  rename_i c condition x y start exit
  have harms : (p.flow.ending l.header).arms? = some (x, y) := by
    rw [hending]
    rfl
  obtain ⟨hx, hy⟩ := Ending.mem_of_arms? harms
  have hboth : start ∈ p.flow.reachable ∧ exit ∈ p.flow.reachable := by
    rw [← hid] at hreach
    cases hgoes with
    | whenTrue => exact ⟨hf.next_mem hreach hx, hf.next_mem hreach hy⟩
    | whenFalse => exact ⟨hf.next_mem hreach hy, hf.next_mem hreach hx⟩
  have hroom : Room p least (V.insert l.header) (n + 1) := ⟨by omega, hsteps⟩
  refine .bind (does_visit (does_arm_bind hb hroom hboth.1 fun body V' n' hbody hs =>
    does_pure ?_))
  exact ⟨⟨.tested hregular hending ha hstatements hresidue hvalue hgoes hbody,
    by rintro _ ⟨⟩; exact hboth.2, hsaves.trans hs⟩, hs.steps⟩

/-! ## Iterations -/

theorem does_iteration (hf : p.flow.Analysed) (hb : Builds p build B least) {body exit : Nat}
    (hreach : id ∈ p.flow.reachable) (hending : p.flow.ending id = .iterBegin body exit)
    (hload : load p (V.insert id) (n + 1) ≤ 2 * p.flow.exit) (hsteps : least ≤ n + 1) :
    Does p (Construct.iteration p build id body exit) V (n + 1)
      (Goal p (V.insert id) (n + 1) (Iterated p B id body exit V)) := by
  have harms : (p.flow.ending id).arms? = some (body, exit) := by
    rw [hending]
    rfl
  have hbody := hf.next_mem hreach (Ending.mem_of_arms? harms).1
  have hexit := hf.next_mem hreach (Ending.mem_of_arms? harms).2
  unfold Construct.iteration
  split
  · refine .bind (does_note (.bind (does_raw (does_pure ?_))))
    exact ⟨.noAdvance, by rintro _ ⟨⟩, .refl _ _ _⟩
  rename_i l latch hadvance
  obtain ⟨hadvance, hid⟩ := Option.filter_eq_some_iff.mp hadvance
  refine .bind (does_lift? fun begun hbegun => .bind (does_lift? fun advanced hadvanced => ?_))
  split
  · rename_i begun advanced
    split
    · rename_i iterator element hslots
      have hroom : Room p least (V.insert id) (n + 1) := ⟨hload, hsteps⟩
      have hlatch := saves_insert p (V.insert id) (n + 1) latch
      refine .bind (does_visit (.bind (does_visit ?_)))
      refine does_arm_bind hb (hroom.later hlatch) hbody fun nodes V' n' hnodes hs => ?_
      refine .bind (does_needed ?_ fun iterable hvalue => does_pure ?_)
      · exact fun hp => hp.value id begun hbegun (.inr (by rw [hending]; rfl))
      · exact ⟨.turns hadvance (by simpa using hid) hbegun hadvanced hslots hvalue hnodes,
          by rintro _ ⟨⟩; exact hexit, hlatch.trans hs⟩
    · rename_i hslots
      refine does_throw (fails_of_not fun hp => ?_)
      obtain ⟨⟨iterator, element⟩, hsome⟩ :=
        Option.isSome_iff_exists.mp (hp.slots id (by rw [hending]; rfl))
      exact hslots iterator element hsome
  · refine .bind (does_raw (does_pure ?_))
    exact ⟨.notLifted, by rintro _ ⟨⟩, .refl _ _ _⟩

/-! ## Every block -/

theorem does_plain (hf : p.flow.Analysed) (hb : Builds p build B least)
    (hreach : id ∈ p.flow.reachable) (hreal : id < p.flow.exit)
    (hroom : Room p least (V.insert id) n)
    (hother : ∀ a b, p.flow.ending id ≠ .iterBegin a b ∧ p.flow.ending id ≠ .iterNext a b) :
    Does p (Construct.plain p build id r) V n
      (Goal p (V.insert id) n (Plain p B id r (V.insert id))) := by
  have hafter (next : Nat) (h : afterRaw (p.flow.ending id) = some next) :
      next ∈ p.flow.reachable :=
    hf.next_mem hreach (mem_of_afterRaw h)
  have hinsert := saves_insert p (V.insert id) n id
  refine .bind (does_visit (.bind (does_lift? fun lifted hlift => ?_)))
  cases lifted with
  | none =>
    refine .bind (does_raw ?_)
    have hgoal : Goal p (V.insert id) n (Plain p B id r (V.insert id))
        ([.raw (p.rawOf id .notLifted)], afterRaw (p.flow.ending id)) ((V.insert id).insert id) n :=
      ⟨.notLifted, hafter, hinsert⟩
    cases hending : p.flow.ending id <;> rw [hending] at hgoal <;> exact does_pure hgoal
  | some l =>
    cases hending : p.flow.ending id with
    | cond x y =>
      refine (does_conditional hf hb hroom hreach hlift hending).mono ?_
      rintro construct V' n' ⟨⟨c, hvalue, h⟩, hrest⟩
      exact ⟨.conditional hlift hvalue hending h, hrest⟩
    | ret exit => exact does_pure ⟨.ret hlift hending, by rintro _ ⟨⟩, .refl _ _ _⟩
    | jump t =>
      rw [hending] at hafter
      exact does_pure ⟨.straight hlift (.inl hending), hafter, .refl _ _ _⟩
    | fallthrough t =>
      rw [hending] at hafter
      exact does_pure ⟨.straight hlift (.inr hending), hafter, .refl _ _ _⟩
    | iterBegin a b => exact absurd hending (hother a b).1
    | iterNext a b => exact absurd hending (hother a b).2
    | exit =>
      obtain ⟨i, -, hkind⟩ := hf.proper.last id hreal
      rw [show (p.flow.graph.block id).ending = .exit from hending] at hkind
      cases htransfer : i.transfer <;> rw [htransfer] at hkind <;> cases hkind

/-- What is built at a block: derived constructs, and one step is saved where a loop was entered. -/
structure Result (p : Plan) (B : Bodies) (id : Nat) (r : Region) (V : BlockSet) (n : Nat)
    (c : Construct) (V' : BlockSet) (n' : Nat) : Prop where
  made : Made p B id r V c V'
  next : ∀ next, c.2 = some next → next ∈ p.flow.reachable
  steps : n < n'
  load : load p V' n' ≤ load p V n
  entered : r.header = some id → Structuring.load p V' n' + 1 ≤ Structuring.load p V n

/-- The construct at a block. -/
theorem does_build (hf : p.flow.Analysed) (hb : Builds p build B least)
    (hreach : id ∈ p.flow.reachable) (hreal : id < p.flow.exit) (hfresh : id ∉ V)
    (hload : load p V n ≤ 2 * p.flow.exit + if r.header = some id then 1 else 0)
    (hsteps : least ≤ n + 1) :
    Does p (Construct.build p build id r) V n (Result p B id r V n) := by
  have hsize := hf.size_eq
  have hcount : load p V n ≤ 2 * p.flow.exit + 1 := by
    split at hload <;> omega
  have hinsert : load p (V.insert id) (n + 1) + 1 ≤ load p V n := by
    have := load_insert (n := n + 1) hreal hfresh
    unfold load at *
    omega
  have hresult {D : Construct → BlockSet → Prop} (hD : ∀ c V', D c V' → Made p B id r V c V')
      {c : Construct} {V' : BlockSet} {n' : Nat}
      (h : Goal p (V.insert id) (n + 1) D c V' n') : Result p B id r V n c V' n' := by
    obtain ⟨hd, hnext, hs⟩ := h
    have := hs.load
    have := hs.steps
    exact ⟨hD c V' hd, hnext, by omega, by omega, fun _ => by omega⟩
  have hroom : Room p least (V.insert id) (n + 1) := ⟨by omega, hsteps⟩
  refine .bind (does_step ?_ ?_)
  · unfold load at hcount
    omega
  split
  · rename_i l hloop
    obtain ⟨hl, hheader⟩ := Option.filter_eq_some_iff.mp hloop
    have hheader : r.header ≠ some id := fun h => by simp [h] at hheader
    rw [if_neg hheader, Nat.add_zero] at hload
    refine (does_loop hf hb hl hreach hreal hfresh hload hsteps).mono ?_
    rintro c V' n' ⟨⟨hd, hnext, hs⟩, hlt⟩
    exact ⟨.loop hl hheader hd, hnext, hlt, hs.load, fun h => absurd h hheader⟩
  · rename_i hloop
    have halone : Alone p id r := by
      intro l hl
      by_contra hne
      rw [hl] at hloop
      simp [Option.filter, Ne.symm hne] at hloop
    split
    · rename_i body exit hending
      refine (does_iteration hf hb hreach hending hroom.load hsteps).mono ?_
      rintro c V' n' ⟨hd, hnext, hs⟩
      exact hresult (fun _ _ h => .iteration halone hending h) ⟨hd, hnext, hs⟩
    · rename_i body exit hending
      refine .bind (does_raw (does_pure (hresult (D := fun c V' => Made p B id r V c V')
        (fun _ _ h => h) ?_)))
      exact ⟨.strayAdvance halone hending, by rintro _ ⟨⟩, .refl _ _ _⟩
    · rename_i hbegin hadvance
      refine (does_plain hf hb hreach hreal hroom fun a b => ⟨?_, ?_⟩).mono ?_
      · exact hbegin a b
      · exact hadvance a b
      · exact fun c V' n' h => hresult (fun _ _ h => .plain halone h) h

/-! ## Bodies -/

/-- A body is built on after its first construct. -/
theorem does_onwards (hf : p.flow.Analysed) (hb : Builds p build B least) {entering : Bool}
    (henters : Enters p entering start r V)
    (hload : load p V n ≤ 2 * p.flow.exit + if entering then 1 else 0) (hsteps : least ≤ n + 1) :
    Does p (do
      let (nodes, next) ← Construct.build p build start r
      match next with
      | none => return nodes
      | some id => return nodes ++ (← build false id r)) V n
      fun nodes V' n' => Onwards p B entering start r V nodes V' ∧ n ≤ n' ∧
        load p V' n' + (if entering then 1 else 0) ≤ load p V n := by
  have hheader (h : entering = true) : r.header = some start := by
    rcases henters.way with ⟨-, hh⟩ | ⟨hh, -⟩
    · exact hh
    · rw [h] at hh
      cases hh
  have hload' : load p V n ≤ 2 * p.flow.exit + if r.header = some start then 1 else 0 := by
    cases entering with
    | true => rwa [if_pos (hheader rfl)]
    | false => exact Nat.le_trans hload (Nat.le_add_right _ _)
  refine .bind ((does_build hf hb henters.reach henters.real henters.fresh hload' hsteps).mono ?_)
  rintro ⟨nodes, next⟩ V₁ n₁ ⟨hmade, hnext, hn, hl, hentered⟩
  have hl₁ : load p V₁ n₁ + (if entering then 1 else 0) ≤ load p V n := by
    split
    · rename_i he
      exact hentered (hheader he)
    · exact hl
  cases next with
  | none => exact does_pure ⟨.stops henters hmade, Nat.le_of_lt hn, hl₁⟩
  | some next =>
    have hroom : Room p least V₁ n₁ := ⟨by omega, by omega⟩
    refine .bind (does_body hb hroom (hnext next rfl) fun rest V₂ n₂ hrest hs₂ => does_pure ?_)
    have := hs₂.load
    have := hs₂.steps
    exact ⟨.goesOn henters hmade hrest, by omega, by omega⟩

/-- Without fuel no budget is left either. -/
theorem not_fit_of_steps (hf : p.flow.Analysed) (hload : load p V n ≤ 2 * p.flow.exit + 1)
    (hsteps : p.budget + 1 ≤ n) : ¬ p.Fit := by
  intro hfit
  have hsize := hf.size_eq
  rw [Plan.budget, hfit.budget, Option.getD_none] at hsteps
  unfold load at hload
  omega

theorem lt_exit_of_builds (hf : p.flow.Analysed) (hstart : start ∈ p.flow.reachable)
    (h : onward p.flow r V start = .builds) : start < p.flow.exit ∧ start ∉ V := by
  have hle := hf.le_exit hstart
  unfold onward at h
  split at h
  · cases h
  split at h
  · cases h
  split at h
  · cases h
  rename_i hne
  split at h
  · cases h
  split at h
  · cases h
  rename_i hfresh
  exact ⟨Nat.lt_of_le_of_ne hle hne, hfresh⟩

/-- The bodies of the walk are derived. -/
theorem builds_body (hf : p.flow.Analysed) (fuel : Nat) :
    Builds p (body p fuel) (Derived p fuel) (p.budget + 1 - fuel) := by
  induction fuel with
  | zero =>
    refine ⟨fun start r V n _ hroom => ?_, fun start r V n _ _ _ _ hload hsteps => ?_⟩
    · exact does_throw ⟨not_fit_of_steps hf (Nat.le_succ_of_le hroom.load) hroom.steps, fun _ => rfl⟩
    · exact does_throw ⟨not_fit_of_steps hf hload hsteps, fun _ => rfl⟩
  | succ fuel ih =>
    refine ⟨fun start r V n hstart hroom => ?_,
      fun start r V n hstart hreal hfresh hheader hload hsteps => ?_⟩
    · have := hroom.steps
      refine does_get fun w hw => ?_
      dsimp only
      rw [hw.visited, if_neg Bool.false_ne_true]
      split
      · rename_i nodes honward
        exact does_pure ⟨.ends honward, .refl p V n⟩
      · rename_i reason honward
        exact .bind (does_goto (does_pure ⟨.jumps honward, .refl p V n⟩))
      · rename_i honward
        obtain ⟨hreal, hfresh⟩ := lt_exit_of_builds hf hstart honward
        refine (does_onwards hf ih ⟨hstart, hreal, hfresh, .inr ⟨rfl, honward⟩⟩ hroom.load
          (by omega)).mono ?_
        rintro nodes V' n' ⟨h, hn, hl⟩
        exact ⟨h, hl, hn⟩
    · refine does_get fun w hw => ?_
      refine (does_onwards hf ih ⟨hstart, hreal, hfresh, .inl ⟨rfl, hheader⟩⟩ hload (by omega)).mono ?_
      rintro nodes V' n' ⟨h, hn, hl⟩
      exact ⟨h, hl, hn⟩

/-! ## Functions -/

/-- The nodes of the blocks that the walk did not reach. -/
def leftoverNodes (p : Plan) (V : BlockSet) : List Node :=
  (p.flow.realBlocks.filter fun id => !V.contains id).map fun id =>
    .raw (p.rawOf id (if p.flow.reachable.contains id then .unstructured else .unreachable))

/-- They are raw, and those that are called unreachable are. -/
theorem leftoverNodes_induction {P : List Node → Prop} (V : BlockSet) (hnil : P [])
    (hcons : ∀ id reason ns, (∀ text, reason ≠ RawReason.other text) →
      (reason = .unreachable → id ∉ p.flow.reachable) → P ns →
      P (.raw (p.rawOf id reason) :: ns)) : P (leftoverNodes p V) := by
  unfold leftoverNodes
  induction p.flow.realBlocks.filter fun id => !V.contains id with
  | nil => exact hnil
  | cons id ids ih =>
    rw [List.map_cons]
    refine hcons _ _ _ ?_ ?_ ih <;> split <;> rename_i hreach
    · exact nofun
    · exact nofun
    · exact nofun
    · exact fun _ hmem => hreach hmem

theorem does_raws {ids : List Nat} {reason : Nat → RawReason} {Q : List Node → BlockSet → Nat → Prop}
    (h : Q (ids.map fun id => .raw (p.rawOf id (reason id))) (ids.foldl BlockSet.insert V) n) :
    Does p (ids.mapM fun id => raw p id (reason id)) V n Q := by
  induction ids generalizing V Q with
  | nil => exact does_pure h
  | cons id ids ih =>
    rw [List.mapM_cons]
    exact .bind (does_raw (.bind (ih (does_pure h))))

theorem does_leftovers {Q : List Node → BlockSet → Nat → Prop}
    (h : ∀ V', Q (leftoverNodes p V) V' n) : Does p (leftovers p) V n Q := by
  refine does_get fun w hw => ?_
  rw [hw.visited]
  exact does_raws (h _)

/-- The tree of a function, before it is checked. -/
def tree (p : Plan) : Structuring (List Node) := do
  let walked ← body p (p.budget + 1) false 0 { stop := some p.flow.exit }
  return walked ++ (← leftovers p)

/-- The nodes that the walk builds: a body from the entry up to the end of the function. -/
def Walked (p : Plan) (nodes : List Node) (V : BlockSet) : Prop :=
  Derived p (p.budget + 1) false 0 { stop := some p.flow.exit } .empty nodes V

theorem does_tree (hf : p.flow.Analysed) :
    Does p (tree p) .empty 0 fun nodes _ _ => ∃ walked V, Walked p walked V ∧
      nodes = walked ++ leftoverNodes p V := by
  have hempty : ((List.range p.flow.exit).filter (· ∉ BlockSet.empty)).length = p.flow.exit := by
    rw [List.filter_eq_self.mpr (by simp), List.length_range]
  have hroom : Room p (p.budget + 1 - (p.budget + 1)) .empty 0 := by
    refine ⟨?_, by omega⟩
    unfold load
    omega
  refine .bind (does_body (builds_body hf _) hroom hf.zero_mem fun walked V n' hwalked _ => ?_)
  exact .bind (does_leftovers fun V' => does_pure ⟨walked, V, hwalked, rfl⟩)

/-- A function is its tree, which is checked. -/
theorem function_eq (p : Plan) :
    function p = tree p >>= fun nodes => checkCoverage p nodes >>= fun _ => pure nodes := by
  unfold function tree
  simp only [bind_assoc, pure_bind]

theorem holds_start (p : Plan) : Holds p .empty 0 {} :=
  ⟨fun _ _ h => (nomatch h), rfl, rfl⟩

/-- The tree of a function that was structured. -/
theorem tree_of_function (hf : p.flow.Analysed) {nodes : List Node} {w w' : Walk}
    (hw : Holds p .empty 0 w) (h : (function p).run.run w = (.ok nodes, w')) :
    ∃ walked V, Walked p walked V ∧ nodes = walked ++ leftoverNodes p V := by
  rw [function_eq, Outcome.run_bind] at h
  have htree := does_tree hf w hw
  cases hrun : (tree p).run.run w with
  | mk r w₁ =>
    rw [hrun] at h htree
    cases r with
    | error e => cases h
    | ok found =>
      obtain ⟨V', n', -, hq⟩ := htree
      dsimp only at h
      rw [Outcome.run_bind] at h
      cases hcheck : (checkCoverage p found).run.run w₁ with
      | mk r w₂ =>
        rw [hcheck] at h
        cases r with
        | error e => cases h
        | ok _ =>
          cases h
          exact hq

end Unscript.Structuring
