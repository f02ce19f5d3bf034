import Unscript.Proofs.Structuring.Coverage
import Unscript.Proofs.Structuring.Targets

/-!
# Where the jumps of a tree lead

A tree jumps to blocks that follow the blocks that it holds, to blocks where arms meet, and to the
blocks after loops. A block of the chain of comparisons that became a match follows the one before
it in the chain only, and no arms meet there. So a jump leads into a chain only where a loop ends.

* `Structuring.Chained`: a block that continues a chain of comparisons behind another.
* `Structuring.EndsLoop`: a block after a loop.
* `Structuring.Leads`: where the jumps of nodes lead, and which comparisons they hold.
* `Structuring.Resumes`: a block where the walk may go on behind them.

Results:
* `Structuring.Chained.not_join`, `Structuring.Chained.ne_of_arms`: a chain is entered at its first
  block.
* `Structuring.Leads.append`: jumps of nodes put together.
* `Structuring.steers_made`: the jumps of a construct.
* `Structured.maps_of_ofInstructions`: a jump of a tree to a comparison of a match leads to a block
  after a loop.
-/

namespace Unscript

open Node (gather)

/-- The blocks of the comparisons of a match behind the first. -/
def Node.tests : Node → List Nat
  | .matching _ _ _ _ tests => tests.map (·.id)
  | _ => []

namespace Structuring

open BlockSet (mem_insert_self subset_insert)

variable {p : Plan} {B : Bodies} {r : Region} {V V₁ V₂ V' W : BlockSet} {S T : List Nat}
  {js js' ts ts' tests : List Nat} {a b nodes : List Node} {n : Node}
  {id x y z start stop join : Nat}

/-! ## Chains -/

/-- A block that continues a chain of comparisons behind another. -/
structure Chained (p : Plan) (y x : Nat) : Prop where
  ne : x ≠ y
  preds : p.flow.preds x = [y]
  begins : p.flow.loopAt? x = none
  arms : ∃ a, (p.flow.ending y).arms? = some (a, x)
  meet : ∃ join, join ≠ x ∧ p.flow.join? y = some join ∧ p.flow.join? x = some join

/-- A block after a loop. -/
def EndsLoop (p : Plan) (x : Nat) : Prop :=
  ∃ l ∈ p.flow.loops, p.flow.loopExit? l = some x

namespace Chained

theorem reach (h : Chained p y x) : y ∈ p.flow.reachable := by
  obtain ⟨_, -, hy, -⟩ := h.meet
  exact (Flow.Analysed.ne_of_join? hy).1

theorem mem_successors (h : Chained p y x) : x ∈ (p.flow.ending y).successors := by
  obtain ⟨a, harms⟩ := h.arms
  exact (Ending.mem_of_arms? harms).2

/-- It is reached from the block before it only. -/
theorem eq_of_mem (hf : p.flow.Analysed) (h : Chained p y x) (hid : id < p.flow.graph.size)
    (hx : x ∈ (p.flow.ending id).successors) : y = id := by
  have hsize : x < p.flow.graph.size := by
    have : x ≤ p.flow.exit := hf.proper.targets id x hx
    rw [hf.size_eq]
    omega
  have hmem : id ∈ p.flow.preds x := hf.mem_preds.mpr ⟨hsize, hid, hx⟩
  rw [h.preds] at hmem
  exact (List.mem_singleton.mp hmem).symm

/-- No arms meet at it: the two blocks are entered at the first of them. -/
theorem not_join (hf : p.flow.Analysed) (h : Chained p y x) : p.flow.join? z ≠ some x := by
  intro hz
  obtain ⟨join, hne, hy, hx⟩ := h.meet
  have hentry : ∀ i ∈ p.flow.reachable, ∀ j ∈ (p.flow.ending i).successors, (j = y ∨ j = x) →
      j ≠ y → i = y ∨ i = x := by
    rintro i hi j hj hin hjy
    obtain rfl := hin.resolve_left hjy
    exact .inl (h.eq_of_mem hf (hf.lt_size hi) hj).symm
  rcases hf.join?_mem_of_entry h.reach (.inl rfl) hentry hz (.inr rfl) h.ne with rfl | rfl
  · rw [hy] at hz
    exact hne (Option.some.inj hz)
  · rw [hx] at hz
    exact hne (Option.some.inj hz)

/-- The arms of the block before it are different: else they would meet at it. -/
theorem ne_of_arms (hf : p.flow.Analysed) (h : Chained p y x)
    (harms : (p.flow.ending y).arms? = some (z, x)) : z ≠ x := by
  rintro rfl
  obtain ⟨join, hne, hy, -⟩ := h.meet
  have hentry : ∀ i ∈ p.flow.reachable, ∀ j ∈ (p.flow.ending i).successors, j ≠ y → j ≠ z →
      i ≠ y := by
    rintro i - j hj - hjz rfl
    exact hjz (((Ending.mem_successors_of_arms? harms).mp hj).elim id id)
  have hz : z ∈ p.flow.reachable := hf.next_mem h.reach h.mem_successors
  exact hf.join?_mem_of_entry (S := (· ≠ y)) hz h.ne hentry hy (Flow.Analysed.ne_of_join? hy).2 hne
    rfl

end Chained

section Links

variable {s : Chain.Scope} {current fallback last : Nat} {cases : List (Expr × Nat)}

/-- A comparison that continues a chain meets where the chain does, which is elsewhere. -/
theorem canFollow_meets (h : Chain.canFollow p s V y id = true) :
    id ≠ s.join ∧ p.flow.join? id = some s.join := by
  unfold Chain.canFollow at h
  simp only [Bool.and_eq_true, Bool.not_eq_true', Bool.or_eq_false_iff, beq_iff_eq,
    beq_eq_false_iff_ne] at h
  obtain ⟨⟨⟨⟨⟨⟨⟨⟨hne, -⟩, -⟩, -⟩, -⟩, -⟩, -⟩, hjoin⟩, -⟩ := h
  exact ⟨hne, hjoin⟩

/-- The comparisons of a chain continue it one behind another. -/
theorem Links.chained (h : Links p s V current fallback cases tests last)
    (hcurrent : current ∈ V ∨ ∃ y, y ≠ current ∧ p.flow.preds current = [y])
    (hjoin : p.flow.join? current = some s.join)
    (harms : ∃ a, (p.flow.ending current).arms? = some (a, fallback)) :
    ∀ x ∈ tests, ∃ y ∈ current :: tests, Chained p y x := by
  induction h with
  | done => exact fun x hx => absurd hx List.not_mem_nil
  | @link current id a b _ _ _ _ _ hcan _ _ _ _ hending _ ih =>
    obtain ⟨hfresh, hbegins, hpreds⟩ := canFollow_eq hcan
    obtain ⟨hne, hmeets⟩ := canFollow_meets hcan
    have hdiff : id ≠ current := by
      rintro rfl
      rcases hcurrent with hold | ⟨y, hy, hpreds'⟩
      · exact hfresh hold
      · rw [hpreds] at hpreds'
        exact hy (List.singleton_inj.mp hpreds').symm
    have hlater := ih (.inr ⟨current, hdiff.symm, hpreds⟩) hmeets ⟨a, hending⟩
    refine List.forall_mem_cons.mpr ⟨⟨current, List.mem_cons_self,
      ⟨hdiff, hpreds, hbegins, harms, s.join, hne.symm, hjoin, hmeets⟩⟩, fun x hx => ?_⟩
    obtain ⟨y, hy, hchained⟩ := hlater x hx
    exact ⟨y, List.mem_cons_of_mem _ hy, hchained⟩

/-- The cases of a chain begin at the true arms of its comparisons. -/
theorem Links.arms_of_mem (h : Links p s V current fallback cases tests last) :
    ∀ c ∈ cases, ∃ t ∈ tests, ∃ z, (p.flow.ending t).arms? = some (c.2, z) := by
  induction h with
  | done => exact fun x hx => absurd hx List.not_mem_nil
  | @link _ id a b _ _ _ _ _ _ _ _ _ _ hending _ ih =>
    refine List.forall_mem_cons.mpr ⟨⟨id, List.mem_cons_self, b, hending⟩, fun c hc => ?_⟩
    obtain ⟨t, ht, harms⟩ := ih c hc
    exact ⟨t, List.mem_cons_of_mem _ ht, harms⟩

/-- Behind the last comparison of a chain stands its false arm. -/
theorem Links.last_mem (h : Links p s V current fallback cases tests last)
    (hfallback : fallback ∈ (p.flow.ending current).successors) :
    last ∈ (p.flow.ending ((current :: tests).getLast (List.cons_ne_nil _ _))).successors := by
  induction h with
  | done => exact hfallback
  | link _ _ _ _ _ hending _ ih =>
    rw [List.getLast_cons_cons]
    exact ih (Ending.mem_of_arms? hending).2

/-- A chain does not come back to itself. -/
theorem Links.last_not_mem (hf : p.flow.Analysed)
    (h : Links p s V current fallback cases tests last) (hcurrent : current ∈ V)
    (hreach : ∀ t ∈ current :: tests, t ∈ p.flow.reachable)
    (hfallback : fallback ∈ (p.flow.ending current).successors) : last ∉ tests := by
  intro hlast
  have hne := List.cons_ne_nil current tests
  have hnext := h.last_mem hfallback
  have hend : (current :: tests).getLast hne ∈ p.flow.preds last :=
    hf.mem_preds_of_next (hreach _ (List.getLast_mem hne)) hnext
  have htrail := h.trail (.start hcurrent)
  have hback : tests.reverse ++ [current] =
      (current :: tests).getLast hne :: (current :: tests).dropLast.reverse := by
    rw [← List.reverse_cons]
    conv_lhs => rw [← List.dropLast_append_getLast hne, List.reverse_append]
    rfl
  obtain ⟨y, hy, hpreds⟩ := htrail.exists_pred
    (List.mem_append_left _ (List.mem_reverse.mpr hlast)) (h.fresh last hlast)
  rw [hpreds] at hend
  have hnodup := htrail.nodup
  rw [hback] at hy hnodup
  exact (List.nodup_cons.mp hnodup).1 (List.mem_singleton.mp hend ▸ hy)

end Links

/-! ## Jumps and comparisons of nodes -/

/-- A block that was reached: what it continues a chain behind was visited. -/
structure Settled (p : Plan) (V : BlockSet) (x : Nat) : Prop where
  le : x ≤ p.flow.exit
  back : EndsLoop p x ∨ ∀ y, Chained p y x → y ∈ V

/-- Where jumps lead that are made while blocks are visited, and which comparisons are held. A jump
into a chain leads behind a block that is visited then, unless it leads to one of some given blocks
or to a block after a loop; and so do the comparisons continue chains. -/
structure Leads (p : Plan) (V : BlockSet) (S js ts : List Nat) (V' : BlockSet) : Prop where
  subset : ∀ x ∈ V, x ∈ V'
  tests : ∀ x ∈ ts, ∃ y, Chained p y x ∧ y ∉ V ∧ y ∈ V'
  jumps : ∀ x ∈ js, EndsLoop p x ∨ ∀ y, Chained p y x → y ∈ V' ∧ (y ∈ V → x ∈ S)
  apart : ∀ x ∈ js, x ∈ ts → EndsLoop p x
  le : ∀ x ∈ js, x ≤ p.flow.exit

/-- A block where the walk may go on behind nodes with some comparisons. -/
structure Resumes (p : Plan) (V : BlockSet) (S ts : List Nat) (V' : BlockSet) (x : Nat) : Prop where
  le : x ≤ p.flow.exit
  back : EndsLoop p x ∨ x ∉ ts ∧ ∀ y, Chained p y x → y ∈ V' ∧ (y ∈ V → x ∈ S)

theorem Resumes.settled (h : Resumes p V S ts V' x) : Settled p V' x :=
  ⟨h.le, h.back.imp_right fun h y hy => (h.2 y hy).1⟩

namespace Leads

theorem nil (h : ∀ x ∈ V, x ∈ V') : Leads p V S [] [] V' :=
  ⟨h, by simp, by simp, by simp, by simp⟩

theorem mono (h : Leads p V S js ts V') (hS : ∀ x ∈ S, x ∈ T)
    (hjumps : ∀ x ∈ js', x ∈ js) (htests : ∀ x ∈ ts', x ∈ ts) :
    Leads p V T js' ts' V' :=
  ⟨h.subset, fun x hx => h.tests x (htests x hx),
    fun x hx => (h.jumps x (hjumps x hx)).imp_right fun hx y hy =>
      ⟨(hx y hy).1, fun hold => hS x ((hx y hy).2 hold)⟩,
    fun x hx hx' => h.apart x (hjumps x hx) (htests x hx'), fun x hx => h.le x (hjumps x hx)⟩

/-- **Jumps of nodes put together.** The later ones begin where the walk may go on. -/
theorem append (ha : Leads p V S js ts V₁) (hb : Leads p V₁ T js' ts' V₂)
    (hT : ∀ x ∈ T, Resumes p V S ts V₁ x) :
    Leads p V S (js ++ js') (ts ++ ts') V₂ := by
  refine ⟨fun x hx => hb.subset x (ha.subset x hx), ?_, ?_, ?_,
    List.forall_mem_append.mpr ⟨ha.le, hb.le⟩⟩
  · refine List.forall_mem_append.mpr ⟨fun x hx => ?_, fun x hx => ?_⟩
    · obtain ⟨y, hy, hfresh, hmem⟩ := ha.tests x hx
      exact ⟨y, hy, hfresh, hb.subset y hmem⟩
    · obtain ⟨y, hy, hfresh, hmem⟩ := hb.tests x hx
      exact ⟨y, hy, fun hold => hfresh (ha.subset y hold), hmem⟩
  · refine List.forall_mem_append.mpr ⟨fun x hx => ?_, fun x hx => ?_⟩
    · exact (ha.jumps x hx).imp_right fun hx y hy => ⟨hb.subset y (hx y hy).1, (hx y hy).2⟩
    · by_cases hloop : EndsLoop p x
      · exact .inl hloop
      · refine .inr fun y hy => ?_
        obtain ⟨hmem, hstart⟩ := (hb.jumps x hx).resolve_left hloop y hy
        exact ⟨hmem, fun hold =>
          (((hT x (hstart (ha.subset y hold))).back.resolve_left hloop).2 y hy).2 hold⟩
  · intro x hx hx'
    by_contra hloop
    rcases List.mem_append.mp hx with hx | hx <;> rcases List.mem_append.mp hx' with hx' | hx'
    · exact hloop (ha.apart x hx hx')
    · obtain ⟨y, hy, hfresh, -⟩ := hb.tests x hx'
      exact hfresh ((ha.jumps x hx).resolve_left hloop y hy).1
    · obtain ⟨y, hy, -, hmem⟩ := ha.tests x hx'
      have hstart := ((hb.jumps x hx).resolve_left hloop y hy).2 hmem
      exact ((hT x hstart).back.resolve_left hloop).1 hx'
    · exact hloop (hb.apart x hx hx')

/-- What follows a visited block is no comparison behind it. -/
theorem not_mem_tests (hf : p.flow.Analysed) (h : Leads p V S js ts V') (hid : id ∈ V)
    (hsize : id < p.flow.graph.size) (hx : x ∈ (p.flow.ending id).successors) : x ∉ ts := by
  intro hmem
  obtain ⟨y, hy, hfresh, -⟩ := h.tests x hmem
  exact hfresh (hy.eq_of_mem hf hsize hx ▸ hid)

/-- A body may be built at what follows a visited block. -/
theorem resumes_start (hf : p.flow.Analysed) (h : Leads p V S js ts V') (hid : id ∈ V)
    (hsize : id < p.flow.graph.size) (hx : x ∈ (p.flow.ending id).successors) (hS : x ∈ S) :
    Resumes p V S ts V' x := by
  refine ⟨hf.proper.targets id x hx, .inr ⟨h.not_mem_tests hf hid hsize hx,
    fun y hy => ⟨h.subset y ?_, fun _ => hS⟩⟩⟩
  exact hy.eq_of_mem hf hsize hx ▸ hid

/-- The walk may go on at what follows a block that was visited first. -/
theorem resumes_next (hf : p.flow.Analysed) (h : Leads p W S js ts V') (hfresh : id ∉ V)
    (hid : id ∈ W) (hsize : id < p.flow.graph.size) (hx : x ∈ (p.flow.ending id).successors) :
    Resumes p V T ts V' x := by
  refine ⟨hf.proper.targets id x hx, .inr ⟨h.not_mem_tests hf hid hsize hx, fun y hy => ?_⟩⟩
  obtain rfl := hy.eq_of_mem hf hsize hx
  exact ⟨h.subset y hid, fun hold => absurd hold hfresh⟩

/-- The walk may go on where arms meet. -/
theorem resumes_join (hf : p.flow.Analysed) (h : Leads p V S js ts V')
    (hjoin : p.flow.join? z = some x) : Resumes p W T ts V' x := by
  refine ⟨hf.le_exit (hf.join?_mem hjoin), .inr ⟨fun hmem => ?_,
    fun y hy => absurd hjoin (hy.not_join hf)⟩⟩
  obtain ⟨y, hy, -⟩ := h.tests x hmem
  exact hy.not_join hf hjoin

/-- Nodes behind a block that is visited first, which begin at what follows it. -/
theorem after (hf : p.flow.Analysed) (hsub : ∀ x ∈ V, x ∈ W) (hfresh : id ∉ V) (hid : id ∈ W)
    (hsize : id < p.flow.graph.size) (h : Leads p W S js ts V')
    (hS : ∀ x ∈ S, x ∈ (p.flow.ending id).successors) : Leads p V T js ts V' :=
  (Leads.nil hsub).append h fun x hx =>
    (Leads.nil (fun _ h => h) : Leads p W S [] [] W).resumes_next hf hfresh hid hsize (hS x hx)

/-- Two arms of a visited block. -/
theorem both (hf : p.flow.Analysed) (ha : Leads p V [x] js ts V₁)
    (hb : Leads p V₁ [y] js' ts' V₂) (hid : id ∈ V) (hsize : id < p.flow.graph.size)
    (hy : y ∈ (p.flow.ending id).successors) :
    Leads p V [x, y] (js ++ js') (ts ++ ts') V₂ := by
  have ha' : Leads p V [x, y] js ts V₁ :=
    ha.mono (fun z hz => List.mem_singleton.mp hz ▸ List.mem_cons_self) (fun _ h => h) fun _ h => h
  refine ha'.append hb fun z hz => ?_
  obtain rfl := List.mem_singleton.mp hz
  exact ha'.resumes_start hf hid hsize hy (List.mem_cons_of_mem _ List.mem_cons_self)

/-- A block without structure jumps to what follows it. -/
theorem raw (hf : p.flow.Analysed) (hfresh : id ∉ V) (hsize : id < p.flow.graph.size) :
    Leads p V S (p.flow.ending id).destinations [] (V.insert id) := by
  have hnext (x : Nat) (hx : x ∈ (p.flow.ending id).destinations) :
      x ∈ (p.flow.ending id).successors := Ending.mem_successors_of_destinations hx
  refine ⟨subset_insert V id, by simp, fun x hx => .inr fun y hy => ?_, by simp,
    fun x hx => hf.proper.targets id x (hnext x hx)⟩
  obtain rfl := hy.eq_of_mem hf hsize (hnext x hx)
  exact ⟨mem_insert_self V y, fun hold => absurd hold hfresh⟩

end Leads

/-- Nodes whose jumps and comparisons are as said. -/
def Sends (p : Plan) (V : BlockSet) (S : List Nat) (nodes : List Node) (V' : BlockSet) : Prop :=
  Leads p V S (gather Node.jumps nodes) (gather Node.tests nodes) V'

/-- Nodes that hold neither jumps nor comparisons. -/
def Calm (nodes : List Node) : Prop :=
  gather Node.jumps nodes = [] ∧ gather Node.tests nodes = []

theorem calm_exit? (h : r.exit? p.flow x = some n) : Calm [n] := by
  unfold Region.exit? at h
  split at h
  · cases h
    exact ⟨rfl, rfl⟩
  split at h
  · cases h
    exact ⟨rfl, rfl⟩
  split at h
  · cases h
    exact ⟨rfl, rfl⟩
  · cases h

theorem calm_armExit? (h : r.armExit? p.flow x = some n) : Calm [n] := by
  unfold Region.armExit? at h
  split at h
  · cases h
  · exact calm_exit? h

theorem Calm.ifElse (ha : Calm a) (hb : Calm b) (i : Option Nat) (c : Expr) :
    Calm [.ifElse i c a b] := by
  unfold Calm at *
  rw [Node.gather_ifElse, Node.gather_ifElse, ha.1, ha.2, hb.1, hb.2]
  exact ⟨rfl, rfl⟩

theorem calm_nil : Calm [] :=
  ⟨rfl, rfl⟩

theorem Calm.sends (h : Calm nodes) (hsub : ∀ x ∈ V, x ∈ V') : Sends p V S nodes V' := by
  unfold Sends
  rw [h.1, h.2]
  exact .nil hsub

namespace Sends

theorem append (ha : Sends p V S a V₁) (hb : Sends p V₁ T b V₂)
    (hT : ∀ x ∈ T, Resumes p V S (gather Node.tests a) V₁ x) : Sends p V S (a ++ b) V₂ := by
  unfold Sends at *
  rw [Node.gather_append, Node.gather_append]
  exact Leads.append ha hb hT

/-- A block at the head of nodes holds neither. -/
theorem cons (h : Sends p V S nodes V') (block : BlockNode) :
    Sends p V S (.block block :: nodes) V' := by
  unfold Sends at *
  rw [Node.gather_cons, Node.gather_cons Node.tests]
  exact h

theorem ifElse (h : Leads p V S (gather Node.jumps a ++ gather Node.jumps b)
    (gather Node.tests a ++ gather Node.tests b) V') (i : Option Nat) (c : Expr) :
    Sends p V S [.ifElse i c a b] V' := by
  unfold Sends
  rw [Node.gather_ifElse, Node.gather_ifElse]
  exact h

theorem lone (h : Sends p V S a V') (i : Option Nat) (c : Expr) :
    Sends p V S [.ifElse i c a []] V' :=
  .ifElse (by rwa [Node.gather_nil, Node.gather_nil, List.append_nil, List.append_nil]) i c

theorem ifElseOf (h : Leads p V S (gather Node.jumps a ++ gather Node.jumps b)
    (gather Node.tests a ++ gather Node.tests b) V') (id : Nat) (c : Expr) :
    Sends p V S [ifElseOf id c a b] V' := by
  unfold Structuring.ifElseOf
  split
  · rename_i hempty
    obtain ⟨rfl, -⟩ : a = [] ∧ b ≠ [] := by simpa using hempty
    exact lone h _ _
  · exact .ifElse h _ _

theorem continueEarly (h : Sends p V S [n] V') (r : Region) (id join : Nat) :
    Sends p V S (Construct.continueEarly r id join n) V' := by
  have hsame {g : Node → List Nat} (hif : ∀ i c a b, g (.ifElse i c a b) = [])
      (hturn : g .nextTurn = []) {x : Nat}
      (hx : x ∈ gather g (Construct.continueEarly r id join n)) : x ∈ gather g [n] :=
    (gather_continueEarly hif hturn).mem_iff.mpr hx
  exact h.mono (fun _ hx => hx) (fun _ => hsame (fun _ _ _ _ => rfl) rfl)
    fun _ => hsame (fun _ _ _ _ => rfl) rfl

theorem whileLoop (h : Sends p V S nodes V') (c : Expr) (header : Option BlockNode) :
    Sends p V S [.whileLoop c (Node.stripNextTurn nodes) header] V' := by
  unfold Sends at *
  rw [Node.gather_whileLoop, Node.gather_whileLoop, Node.gather_stripNextTurn _ rfl,
    Node.gather_stripNextTurn _ rfl]
  exact h

theorem forLoop (h : Sends p V S nodes V') (i v : Nat) (e : Expr) (setup latch : BlockNode) :
    Sends p V S [.forLoop i v e (Node.stripNextTurn nodes) setup latch] V' := by
  unfold Sends at *
  rw [Node.gather_forLoop, Node.gather_forLoop, Node.gather_stripNextTurn _ rfl,
    Node.gather_stripNextTurn _ rfl]
  exact h

theorem raw (hf : p.flow.Analysed) (hfresh : id ∉ V) (hsize : id < p.flow.graph.size)
    (reason : RawReason) : Sends p V S [.raw (p.rawOf id reason)] (V.insert id) := by
  unfold Sends
  rw [Node.gather_lone _ rfl, Node.gather_lone _ rfl]
  exact Leads.raw hf hfresh hsize

end Sends

/-! ## Arms -/

/-- Bodies whose jumps and comparisons are as said. A body that is a jump begins at a block that was
reached. -/
def Directs (p : Plan) (B : Bodies) : Prop :=
  ∀ entering start r V nodes V', B entering start r V nodes V' →
    (∀ reason, onward p.flow r V start = .jumps reason → Settled p V start) →
    Sends p V [start] nodes V'

theorem settled_of_mem (hf : p.flow.Analysed) (hid : id ∈ V) (hsize : id < p.flow.graph.size)
    (hx : x ∈ (p.flow.ending id).successors) : Settled p V x :=
  ⟨hf.proper.targets id x hx, .inr fun _ hy => hy.eq_of_mem hf hsize hx ▸ hid⟩

theorem sends_arm (hB : Directs p B) (h : Arm B r start stop V a V') (hs : Settled p V start) :
    Sends p V [start] a V' := by
  cases h with
  | empty => exact calm_nil.sends fun _ h => h
  | body _ hbody => exact hB _ _ _ _ _ _ hbody fun _ _ => hs

theorem sends_fallback (hB : Directs p B) {fallback : Option (List Node)}
    (h : Fallback B r start stop V fallback V') (hs : Settled p V start) :
    Sends p V [start] (fallback.getD []) V' := by
  cases h with
  | absent => exact calm_nil.sends fun _ h => h
  | present _ hbody => exact hB _ _ _ _ _ _ hbody fun _ _ => hs

/-- The arms of a match begin behind visited blocks. -/
theorem leads_arms (hf : p.flow.Analysed) (hB : Directs p B) {cases : List (Expr × Nat)}
    {bodies : List (Expr × List Node)} (h : Arms B r stop cases V bodies V')
    (hcases : ∀ c ∈ cases, ∃ t ∈ V, t < p.flow.graph.size ∧ c.2 ∈ (p.flow.ending t).successors) :
    Leads p V (cases.map (·.2)) (bodies.flatMap fun c => gather Node.jumps c.2)
      (bodies.flatMap fun c => gather Node.tests c.2) V' := by
  induction h with
  | nil V => exact .nil fun _ h => h
  | @cons e start rest V V₁ V₂ nodes bodies harm _ ih =>
    obtain ⟨⟨t, ht, hsize, hstart⟩, hrest⟩ := List.forall_mem_cons.mp hcases
    have hfirst : Leads p V (start :: rest.map (·.2)) _ _ V₁ :=
      (sends_arm hB harm (settled_of_mem hf ht hsize hstart)).mono
        (fun x hx => List.mem_singleton.mp hx ▸ List.mem_cons_self) (fun _ h => h) fun _ h => h
    refine hfirst.append (ih fun c hc => ?_) fun x hx => ?_
    · obtain ⟨t, ht, hsize, hnext⟩ := hrest c hc
      exact ⟨t, hfirst.subset t ht, hsize, hnext⟩
    · obtain ⟨c, hc, rfl⟩ := List.mem_map.mp hx
      obtain ⟨t, ht, hsize, hnext⟩ := hrest c hc
      exact hfirst.resumes_start hf ht hsize hnext (List.mem_cons_of_mem _ hx)

/-! ## Constructs -/

/-- A construct whose jumps and comparisons are as said, and behind which the walk may go on. -/
structure Steers (p : Plan) (V : BlockSet) (c : Construct) (V' : BlockSet) : Prop where
  sends : Sends p V [] c.1 V'
  next : ∀ x, c.2 = some x → Resumes p V [] (gather Node.tests c.1) V' x

/-- A construct whose block is visited first: it leads on to what follows the block, and goes on
there or where arms meet. -/
theorem steers_of_sends (hf : p.flow.Analysed) (hfresh : id ∉ V) (hid : id ∈ W)
    (hsize : id < p.flow.graph.size) (hsub : ∀ x ∈ V, x ∈ W) (h : Sends p W S nodes V')
    (hS : ∀ x ∈ S, x ∈ (p.flow.ending id).successors) {next : Option Nat}
    (hnext : ∀ x, next = some x → x ∈ (p.flow.ending id).successors ∨
      ∃ z, p.flow.join? z = some x) : Steers p V (nodes, next) V' := by
  refine ⟨Leads.after hf hsub hfresh hid hsize h hS, fun x hx => ?_⟩
  rcases hnext x hx with hx | ⟨z, hz⟩
  · exact Leads.resumes_next hf h hfresh hid hsize hx
  · exact Leads.resumes_join hf h hz

/-! ## Matches -/

section Matches

variable {sc : Chain.Scope} {last : Nat} {cases : List (Expr × Nat)}

/-- A block where an arm of a match begins: it follows a comparison, and is none. -/
structure OpensArm (p : Plan) (V : BlockSet) (ts : List Nat) (V' : BlockSet) (x : Nat) : Prop where
  pred : ∃ t ∈ V', t < p.flow.graph.size ∧ x ∈ (p.flow.ending t).successors
  resumes : Resumes p V [] ts V' x

variable (hf : p.flow.Analysed) (hending : p.flow.ending id = .cond x y) (hfresh : id ∉ V)
  (hjoin : p.flow.join? id = some sc.join)
  (hlinks : Links p sc (V.insert id) id y cases tests last)

include hending hjoin hlinks

theorem Links.follows : ∀ t ∈ tests, ∃ u ∈ id :: tests, Chained p u t :=
  hlinks.chained (.inl (mem_insert_self V id)) hjoin ⟨x, congrArg Ending.arms? hending⟩

include hf

theorem Links.reach : ∀ t ∈ id :: tests, t ∈ p.flow.reachable := by
  refine List.forall_mem_cons.mpr ⟨(Flow.Analysed.ne_of_join? hjoin).1, fun t ht => ?_⟩
  obtain ⟨u, -, hu⟩ := hlinks.follows hending hjoin t ht
  exact hf.next_mem hu.reach hu.mem_successors

omit hf hending hjoin in
theorem Links.visited : ∀ t ∈ id :: tests, t ∈ tests.foldl BlockSet.insert (V.insert id) := by
  have hvisits := hlinks.visits (mem_insert_self V id)
  exact List.forall_mem_cons.mpr ⟨hvisits.subset id (mem_insert_self V id),
    fun t ht => (hvisits.mem t).mpr (.inr ht)⟩

include hfresh

omit hf hending hjoin in
theorem Links.not_mem : ∀ t ∈ id :: tests, t ∉ V :=
  List.forall_mem_cons.mpr ⟨hfresh, fun t ht hold => hlinks.fresh t ht (subset_insert V id t hold)⟩

omit hf in
/-- The comparisons of a match are visited together. -/
theorem Links.leads : Leads p V [] [] tests (tests.foldl BlockSet.insert (V.insert id)) := by
  have hvisits := hlinks.visits (mem_insert_self V id)
  refine ⟨fun t ht => hvisits.subset t (subset_insert V id t ht), fun t ht => ?_, by simp, by simp,
    by simp⟩
  obtain ⟨u, hu, hfollows⟩ := hlinks.follows hending hjoin t ht
  exact ⟨u, hfollows, hlinks.not_mem hfresh u hu, hlinks.visited u hu⟩

/-- What follows a comparison, and is none, begins an arm. -/
theorem Links.opensArm {t z : Nat} (ht : t ∈ id :: tests)
    (hz : z ∈ (p.flow.ending t).successors) (hout : z ∉ tests) :
    OpensArm p V tests (tests.foldl BlockSet.insert (V.insert id)) z := by
  have hsize := hf.lt_size (hlinks.reach hf hending hjoin t ht)
  refine ⟨⟨t, hlinks.visited t ht, hsize, hz⟩, hf.proper.targets t z hz,
    .inr ⟨hout, fun u hu => ?_⟩⟩
  obtain rfl := hu.eq_of_mem hf hsize hz
  exact ⟨hlinks.visited u ht, fun hold => absurd hold (hlinks.not_mem hfresh u ht)⟩

/-- The cases of a match begin at true arms of comparisons, the chain goes on at the false ones. -/
theorem Links.opensArm_of_mem {e : Expr} : ∀ c ∈ (e, x) :: cases,
    OpensArm p V tests (tests.foldl BlockSet.insert (V.insert id)) c.2 := by
  have harms : (p.flow.ending id).arms? = some (x, y) := congrArg Ending.arms? hending
  have hstarts : ∀ c ∈ (e, x) :: cases, ∃ t ∈ id :: tests, ∃ z,
      (p.flow.ending t).arms? = some (c.2, z) := by
    refine List.forall_mem_cons.mpr ⟨⟨id, List.mem_cons_self, y, harms⟩, fun c hc => ?_⟩
    obtain ⟨t, ht, harms⟩ := hlinks.arms_of_mem c hc
    exact ⟨t, List.mem_cons_of_mem _ ht, harms⟩
  intro c hc
  obtain ⟨t, ht, z, hz⟩ := hstarts c hc
  have hnext := (Ending.mem_of_arms? hz).1
  refine hlinks.opensArm hf hending hfresh hjoin ht hnext fun hin => ?_
  obtain ⟨u, -, hu⟩ := hlinks.follows hending hjoin _ hin
  obtain rfl := hu.eq_of_mem hf (hf.lt_size (hlinks.reach hf hending hjoin t ht)) hnext
  obtain ⟨a, ha⟩ := hu.arms
  rw [hz] at ha
  cases ha
  exact hu.ne_of_arms hf hz rfl

/-- The last arm of a match begins behind the last comparison. -/
theorem Links.opensArm_last :
    OpensArm p V tests (tests.foldl BlockSet.insert (V.insert id)) last := by
  have hy := (Ending.mem_of_arms? (congrArg Ending.arms? hending : _ = some (x, y))).2
  have hreach := hlinks.reach hf hending hjoin
  exact hlinks.opensArm hf hending hfresh hjoin (List.getLast_mem _) (hlinks.last_mem hy)
    (hlinks.last_not_mem hf (mem_insert_self V id) hreach hy)

/-- The comparisons of a match are visited before its arms are built. -/
theorem sends_matching (hB : Directs p B) {bodies : List (Expr × List Node)}
    {fallback : Option (List Node)} {pattern : Expr} (subject : Expr)
    (harms : Arms B r stop ((pattern, x) :: cases) (tests.foldl BlockSet.insert (V.insert id))
      bodies V₁) (hfallback : Fallback B r last stop V₁ fallback V₂) :
    Sends p V [] [.matching (some id) subject bodies fallback (tests.map (p.blockNode ·))] V₂ := by
  have hcases := hlinks.opensArm_of_mem hf hending hfresh hjoin (e := pattern)
  have hlast := hlinks.opensArm_last hf hending hfresh hjoin
  obtain ⟨t, ht, hsize, hnext⟩ := hlast.pred
  have hbodies : Leads p _ (((pattern, x) :: cases).map (·.2) ++ [last]) _ _ V₁ :=
    (leads_arms hf hB harms fun c hc => (hcases c hc).pred).mono
      (fun c hc => List.mem_append_left [last] hc) (fun _ h => h) fun _ h => h
  have hsettled := settled_of_mem hf (hbodies.subset t ht) hsize hnext
  have hall := hbodies.append (sends_fallback hB hfallback hsettled) fun c hc => by
    obtain rfl := List.mem_singleton.mp hc
    exact hbodies.resumes_start hf ht hsize hnext (List.mem_append_right _ hc)
  have htotal := (hlinks.leads hending hfresh hjoin).append hall
    (List.forall_mem_append.mpr ⟨List.forall_mem_map.mpr fun c hc => (hcases c hc).resumes,
      List.forall_mem_singleton.mpr hlast.resumes⟩)
  have hids : (tests.map (p.blockNode ·)).map (·.id) = tests := by
    rw [List.map_map]
    exact List.map_id tests
  unfold Sends
  rw [Node.gather_matching, Node.gather_matching]
  show Leads p V [] _ ((tests.map (p.blockNode ·)).map (·.id) ++ _) V₂
  rw [hids]
  exact htotal

end Matches

/-! ## Every construct -/

theorem steers_conditional (hf : p.flow.Analysed) (hB : Directs p B) {block : BlockNode} {c : Expr}
    {construct : Construct} (hending : p.flow.ending id = .cond x y) (hfresh : id ∉ V)
    (hsize : id < p.flow.graph.size)
    (h : Conditional p B id (.block block) c x y r (V.insert id) construct V') :
    Steers p V construct V' := by
  have harms : (p.flow.ending id).arms? = some (x, y) := congrArg Ending.arms? hending
  obtain ⟨hx, hy⟩ := Ending.mem_of_arms? harms
  have hmem := mem_insert_self V id
  have hsub := subset_insert V id
  have hsettled {W : BlockSet} {z : Nat} (hW : ∀ t ∈ V.insert id, t ∈ W)
      (hz : z ∈ (p.flow.ending id).successors) : Settled p W z :=
    settled_of_mem hf (hW id hmem) hsize hz
  have hsame : ∀ t ∈ V.insert id, t ∈ V.insert id := fun _ h => h
  have hmade {nodes : List Node} {S : List Nat} {W : BlockSet} {next : Option Nat}
      (h : Sends p (V.insert id) S nodes W) (hS : ∀ z ∈ S, z ∈ (p.flow.ending id).successors)
      (hnext : ∀ z, next = some z → z ∈ (p.flow.ending id).successors ∨
        ∃ u, p.flow.join? u = some z) : Steers p V (.block block :: nodes, next) W :=
    steers_of_sends hf hfresh hmem hsize hsub (h.cons block) hS hnext
  have hboth {a b : List Node} {V₁ V₂ : BlockSet} (ha : Sends p (V.insert id) [x] a V₁)
      (hb : Sends p V₁ [y] b V₂) := Leads.both hf ha hb hmem hsize hy
  have hxy : ∀ z ∈ [x, y], z ∈ (p.flow.ending id).successors :=
    List.forall_mem_cons.mpr ⟨hx, List.forall_mem_singleton.mpr hy⟩
  cases h with
  | steps ht he =>
    exact hmade (S := []) (((calm_armExit? ht).ifElse (calm_armExit? he) _ _).sends hsame)
      (fun _ h => absurd h List.not_mem_nil) nofun
  | falseSteps ht he =>
    refine hmade (S := []) (((calm_armExit? he).ifElse calm_nil _ _).sends hsame)
      (fun _ h => absurd h List.not_mem_nil) ?_
    rintro _ ⟨⟩
    exact .inl hx
  | trueSteps ht he =>
    refine hmade (S := []) (((calm_armExit? ht).ifElse calm_nil _ _).sends hsame)
      (fun _ h => absurd h List.not_mem_nil) ?_
    rintro _ ⟨⟩
    exact .inl hy
  | @chained _ _ subject _ _ _ _ _ _ _ _ _ hjoin _ _ hlinks hcases hfallback =>
    have hnodes :=
      (sends_matching hf hending hfresh hjoin hlinks hB subject hcases hfallback).cons block
    refine ⟨hnodes, ?_⟩
    rintro _ ⟨⟩
    exact Leads.resumes_join hf hnodes hjoin
  | meets _ _ hjoin _ _ htrue hfalse =>
    have ha := sends_arm hB htrue (hsettled hsame hx)
    have hb := sends_arm hB hfalse (hsettled ha.subset hy)
    refine hmade ((Sends.ifElseOf (hboth ha hb) id c).continueEarly r id _) hxy ?_
    rintro _ ⟨⟩
    exact .inr ⟨id, hjoin⟩
  | falseDeparts _ _ _ _ hbody =>
    refine hmade ((hB _ _ _ _ _ _ hbody fun _ _ => hsettled hsame hy).lone _ _)
      (List.forall_mem_singleton.mpr hy) ?_
    rintro _ ⟨⟩
    exact .inl hx
  | trueDeparts _ _ _ _ hbody =>
    refine hmade ((hB _ _ _ _ _ _ hbody fun _ _ => hsettled hsame hx).lone _ _)
      (List.forall_mem_singleton.mpr hx) ?_
    rintro _ ⟨⟩
    exact .inl hy
  | meetsAtEnd _ _ hjoin htrue hfalse =>
    have ha := sends_arm hB htrue (hsettled hsame hx)
    have hb := sends_arm hB hfalse (hsettled ha.subset hy)
    refine hmade (Sends.ifElseOf (hboth ha hb) id c) hxy ?_
    rintro _ ⟨⟩
    exact .inr ⟨id, hjoin⟩
  | noJoin =>
    rw [BlockSet.insert_of_mem hmem]
    exact ⟨.raw hf hfresh hsize _, nofun⟩

theorem steers_looped (hf : p.flow.Analysed) (hB : Directs p B) {l : Loop}
    (hl : p.flow.loopAt? id = some l) (hfresh : id ∉ V) (hsize : id < p.flow.graph.size)
    {construct : Construct} (h : Looped p B l V construct V') : Steers p V construct V' := by
  have hid : l.header = id := Flow.Analysed.loopAt?_header hl
  subst hid
  cases h with
  | irreducible => exact ⟨.raw hf hfresh hsize _, nofun⟩
  | endless _ hbody =>
    -- No chain of comparisons goes on at the header of a loop.
    have hheader (y : Nat) : ¬ Chained p y l.header := fun h => by
      rw [h.begins] at hl
      cases hl
    have hle : l.header ≤ p.flow.exit := by
      rw [hf.size_eq] at hsize
      omega
    have hsends := hB _ _ _ _ _ _ hbody fun _ _ => ⟨hle, .inr fun y hy => absurd hy (hheader y)⟩
    have hnone : Sends p V [] _ V' := ⟨hsends.subset, hsends.tests, fun x hx =>
      (hsends.jumps x hx).imp_right fun hx y hy => ⟨(hx y hy).1, fun hold =>
        absurd (List.mem_singleton.mp ((hx y hy).2 hold) ▸ hy) (hheader y)⟩, hsends.apart, hsends.le⟩
    exact ⟨hnone.whileLoop _ _, fun x hx => ⟨hf.le_exit (hf.loopExit?_mem hl hx),
      .inl ⟨l, List.mem_of_find?_eq_some hl, hx⟩⟩⟩
  | @tested _ c condition x y start exit _ _ _ hending _ _ _ _ hgoes hbody =>
    have harms : (p.flow.ending l.header).arms? = some (x, y) := congrArg Ending.arms? hending
    obtain ⟨hx, hy⟩ := Ending.mem_of_arms? harms
    have hboth : start ∈ (p.flow.ending l.header).successors ∧
        exit ∈ (p.flow.ending l.header).successors := by
      cases hgoes with
      | whenTrue => exact ⟨hx, hy⟩
      | whenFalse => exact ⟨hy, hx⟩
    have hmem := mem_insert_self V l.header
    have hsends := sends_arm hB hbody (settled_of_mem hf hmem hsize hboth.1)
    refine steers_of_sends hf hfresh hmem hsize (subset_insert V _) (hsends.whileLoop _ _)
      (List.forall_mem_singleton.mpr hboth.1) ?_
    rintro _ ⟨⟩
    exact .inl hboth.2

theorem steers_iterated (hf : p.flow.Analysed) (hB : Directs p B) {body exit : Nat}
    (hending : p.flow.ending id = .iterBegin body exit) (hfresh : id ∉ V)
    (hsize : id < p.flow.graph.size) {construct : Construct}
    (h : Iterated p B id body exit V construct V') : Steers p V construct V' := by
  obtain ⟨hbodyNext, hexitNext⟩ := Ending.mem_of_arms? (congrArg Ending.arms? hending : _ =
    some (body, exit))
  cases h with
  | noAdvance => exact ⟨.raw hf hfresh hsize _, nofun⟩
  | notLifted => exact ⟨.raw hf hfresh hsize _, nofun⟩
  | @turns l latch _ _ _ _ _ _ _ _ _ _ _ _ _ hbody =>
    have hlatch := subset_insert (V.insert id) latch
    have hmem := hlatch id (mem_insert_self V id)
    have hsends := sends_arm hB hbody (settled_of_mem hf hmem hsize hbodyNext)
    refine steers_of_sends hf hfresh hmem hsize (fun x hx => hlatch x (subset_insert V id x hx))
      (hsends.forLoop _ _ _ _ _) (List.forall_mem_singleton.mpr hbodyNext) ?_
    rintro _ ⟨⟩
    exact .inl hexitNext

/-- **The jumps of the construct** at a block. -/
theorem steers_made (hf : p.flow.Analysed) (hB : Directs p B) (hfresh : id ∉ V)
    (hsize : id < p.flow.graph.size) {construct : Construct} (h : Made p B id r V construct V') :
    Steers p V construct V' := by
  have hmem := mem_insert_self V id
  have hsub := subset_insert V id
  have hblock {block : BlockNode} {rest : List Node} {next : Option Nat} (hrest : Calm rest)
      (hnext : ∀ x, next = some x → x ∈ (p.flow.ending id).successors) :
      Steers p V (.block block :: rest, next) (V.insert id) :=
    steers_of_sends (S := []) hf hfresh hmem hsize hsub
      (.cons (hrest.sends fun _ h => h) block) (fun _ h => absurd h List.not_mem_nil)
      fun x hx => .inl (hnext x hx)
  cases h with
  | loop hl _ h => exact steers_looped hf hB hl hfresh hsize h
  | iteration _ hending h => exact steers_iterated hf hB hending hfresh hsize h
  | strayAdvance => exact ⟨.raw hf hfresh hsize _, nofun⟩
  | plain _ h =>
    cases h with
    | notLifted =>
      rw [BlockSet.insert_of_mem hmem]
      have hsends := Sends.raw (S := []) hf hfresh hsize .notLifted
      refine ⟨hsends, fun x hx => ⟨hf.proper.targets id x (mem_of_afterRaw hx),
        .inr ⟨List.not_mem_nil, fun y hy => ?_⟩⟩⟩
      obtain rfl := hy.eq_of_mem hf hsize (mem_of_afterRaw hx)
      exact ⟨hmem, fun hold => absurd hold hfresh⟩
    | conditional _ _ hending h => exact steers_conditional hf hB hending hfresh hsize h
    | ret => exact hblock ⟨rfl, rfl⟩ nofun
    | straight _ hending =>
      refine hblock calm_nil ?_
      rintro _ ⟨⟩
      rcases hending with hending | hending <;> rw [hending] <;> exact List.mem_singleton_self _

/-! ## Bodies -/

theorem directs_onwards (hf : p.flow.Analysed) (hB : Directs p B) : Directs p (Onwards p B) := by
  intro entering start r V nodes V' h hs
  have hsize (he : Enters p entering start r V) : start < p.flow.graph.size := by
    have := he.real
    rw [hf.size_eq]
    omega
  cases h with
  | ends h =>
    refine Calm.sends ?_ fun _ h => h
    obtain ⟨-, rfl⟩ | ⟨-, n, hn, rfl⟩ := ends_of_onward h
    · exact calm_nil
    · exact calm_exit? hn
  | @jumps _ _ _ reason h =>
    obtain ⟨hle, hback⟩ := hs reason h
    show Leads p V [start] [start] [] V
    refine ⟨fun _ h => h, by simp, List.forall_mem_singleton.mpr ?_, by simp,
      List.forall_mem_singleton.mpr hle⟩
    exact hback.imp_right fun h y hy => ⟨h y hy, fun _ => List.mem_singleton_self _⟩
  | stops henters hmade =>
    exact (steers_made hf hB henters.fresh (hsize henters) hmade).sends.mono
      (fun _ h => absurd h List.not_mem_nil) (fun _ h => h) fun _ h => h
  | @goesOn _ _ next _ _ _ _ _ _ henters hmade hrest =>
    have hsteers := steers_made hf hB henters.fresh (hsize henters) hmade
    have hresumes := hsteers.next next rfl
    have hall := hsteers.sends.append (hB _ _ _ _ _ _ hrest fun _ _ => hresumes.settled)
      (List.forall_mem_singleton.mpr hresumes)
    exact hall.mono (fun _ h => absurd h List.not_mem_nil) (fun _ h => h) fun _ h => h

/-- Every body, by induction on its fuel. -/
theorem directs_derived (hf : p.flow.Analysed) (fuel : Nat) : Directs p (Derived p fuel) := by
  induction fuel with
  | zero => exact fun _ _ _ _ _ _ h => h.elim
  | succ fuel ih => exact directs_onwards hf ih

/-! ## Trees -/

/-- Blocks without structure that were not visited. -/
theorem sends_raws (hf : p.flow.Analysed) {ids : List Nat} (hnodup : ids.Nodup)
    (hfresh : ∀ id ∈ ids, id ∉ V) (hsize : ∀ id ∈ ids, id < p.flow.graph.size)
    (reason : Nat → RawReason) :
    Sends p V [] (ids.map fun id => .raw (p.rawOf id (reason id))) (ids.foldl BlockSet.insert V) := by
  induction ids generalizing V with
  | nil => exact calm_nil.sends fun _ h => h
  | cons id ids ih =>
    obtain ⟨hid, hnodup⟩ := List.nodup_cons.mp hnodup
    obtain ⟨hfirst, hfresh⟩ := List.forall_mem_cons.mp hfresh
    obtain ⟨hlt, hsize⟩ := List.forall_mem_cons.mp hsize
    refine (Sends.raw hf hfirst hlt _).append (T := []) (ih hnodup (fun x hx => ?_) hsize) (by simp)
    rw [BlockSet.mem_insert]
    rintro (hold | rfl)
    · exact hfresh x hx hold
    · exact hid hx

/-- The body of a function does not begin with a jump. -/
theorem onward_zero_ne_jumps (f : Flow) (reason : RawReason) :
    onward f { stop := some f.exit } .empty 0 ≠ .jumps reason := by
  unfold onward
  split
  · exact nofun
  split
  · exact nofun
  split
  · exact nofun
  · exact nofun

/-- The jumps and comparisons of a tree. -/
theorem sends_walked (hf : p.flow.Analysed) (h : Walked p nodes V) :
    ∃ V', Sends p .empty [0] (nodes ++ leftoverNodes p V) V' := by
  have hwalked := directs_derived hf _ _ _ _ _ _ _ h fun reason hjumps =>
    absurd hjumps (onward_zero_ne_jumps _ reason)
  refine ⟨_, hwalked.append (T := []) (sends_raws hf (List.nodup_range.filter _) ?_ ?_ _) (by simp)⟩
  · intro id hid
    have hout := (List.mem_filter.mp hid).2
    rw [Bool.not_eq_true'] at hout
    exact fun hmem => Bool.false_ne_true (hout.symm.trans hmem)
  · intro id hid
    have hlt := List.mem_range.mp (List.mem_filter.mp hid).1
    rw [hf.size_eq]
    omega

end Structuring

namespace Structured

open Structuring

/-- A tree over a graph: every block stands in one leaf, the targets are where its raw nodes jump to,
and only where a loop ends a jump leads to a comparison of a match. -/
structure Maps (f : Flow) (s : Structured) : Prop where
  exit : s.exit = some f.exit
  once : ∀ x < f.exit, (gather Node.ownBlocks s.body).count x = 1
  targets : ∀ x, x ∈ s.gotoTargets ↔ x ∈ gather Node.jumps s.body
  le : ∀ x ∈ s.gotoTargets, x ≤ f.exit
  apart : ∀ x ∈ s.gotoTargets, x ∈ gather Node.tests s.body → ∃ l ∈ f.loops, f.loopExit? l = some x

variable {d : Dialect} {options : StructureOptions} {is : List Instruction} {length : Option Nat}
  {s : Structured}

/-- **The tree of a function** over its graph. -/
theorem maps_of_ofInstructions (h : (ofInstructions d options is length).value = .ok s) :
    s = { body := [] } ∨ ∃ f, Flow.build is length = .ok f ∧ s.Maps f := by
  unfold ofInstructions at h
  split at h
  · cases h
    exact .inl rfl
  split at h
  · cases h
  rename_i f hbuild
  unfold ofPlan at h
  split at h
  · rename_i nodes w hrun
    cases h
    have hf := Flow.analysed_of_build hbuild
    have htargets (x : Nat) := mem_gotos_of_function hrun (x := x)
    have hnone := firstRepeated?_of_function hrun
    obtain ⟨walked, V, hwalked, rfl⟩ := tree_of_function hf (holds_start _) hrun
    obtain ⟨V', hsends⟩ := sends_walked hf hwalked
    refine .inr ⟨f, hbuild, rfl, fun x hx => ?_, htargets, fun x hx => ?_, fun x hx => ?_⟩
    · refine (whole_walked hf hwalked).count_eq_one hnone hx fun hnil => ?_
      obtain ⟨i, hlast, -⟩ := hf.proper.last x hx
      have hnil : (f.graph.block x).instructions = [] := hnil
      rw [hnil] at hlast
      cases hlast
    · exact hsends.le x ((htargets x).mp hx)
    · exact hsends.apart x ((htargets x).mp hx)
  · cases h

end Structured

end Unscript
