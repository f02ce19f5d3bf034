import Unscript.Proofs.Flow.Path
import Unscript.Proofs.Registry.Concrete
import Unscript.Proofs.Structuring.Walked
import Unscript.Proofs.Tree.Node
import Unscript.Script.Decode
import Unscript.Structuring.Structured

/-!
# Trees run as the graph does

A body without raw code follows the graph from the block where it begins: it falls to where its
region stops, and its steps lead to the next turn and the exit of the nearest loop, or to the end of
the function. This goes through every construct, and by fuel through all bodies.

* `Region.ways`: where the ways of leaving a body of a region lead.
* `Structuring.Clean`: code without raw nodes but for blocks out of reach.

Results:
* `Structuring.follows_made`: every construct follows the graph when its bodies do.
* `Structuring.simulates_derived`: every body follows the graph.
* `Structured.trace_eq_path`: a tree without raw code runs the blocks of the path through the graph.
-/

namespace Unscript

open Node (runAll run)

/-- Where the ways of leaving code in a loop lead, when falling leads to a block. -/
def LoopFrame.ways (f : Flow) (loop : Option LoopFrame) (next : Option Nat) : Ways where
  falls := next.map .block
  turns := loop.map fun l => .block l.nextTurn
  leaves := loop.bind fun l => l.exit.map .block
  ends := some (.block f.exit)

/-- Where the ways of leaving a body of a region lead. -/
def Region.ways (f : Flow) (r : Region) : Ways :=
  LoopFrame.ways f r.loop r.stop

namespace Structuring

/-- Code without raw nodes but for blocks out of reach. -/
def Clean (f : Flow) (nodes : List Node) : Prop :=
  ∀ r ∈ Node.raws nodes, ∃ id, r.block = some id ∧ id ∉ f.reachable

section Clean

variable {f : Flow} {nodes rest : List Node} {n : Node}

theorem Clean.left (h : Clean f (nodes ++ rest)) : Clean f nodes := fun r hr =>
  h r (by rw [Node.raws_append]; exact List.mem_append_left _ hr)

theorem Clean.right (h : Clean f (nodes ++ rest)) : Clean f rest := fun r hr =>
  h r (by rw [Node.raws_append]; exact List.mem_append_right _ hr)

theorem Clean.head (h : Clean f (n :: rest)) : Clean f [n] :=
  Clean.left (show Clean f ([n] ++ rest) from h)

theorem Clean.tail (h : Clean f (n :: rest)) : Clean f rest :=
  Clean.right (show Clean f ([n] ++ rest) from h)

/-- A reachable block is not raw. -/
theorem Clean.not_raw {p : Plan} {id : Nat} {reason : RawReason}
    (h : Clean f (.raw (p.rawOf id reason) :: rest)) (hid : id ∈ f.reachable) : False := by
  obtain ⟨i, hi, hnot⟩ := h.head _ (List.mem_singleton_self _)
  cases hi
  exact hnot hid

theorem Clean.ofIfElse {b : Option Nat} {c : Expr} (h : Clean f [.ifElse b c nodes []]) :
    Clean f nodes := by
  unfold Clean at h
  rwa [Node.raws_ifElse, Node.raws_nil, List.append_nil] at h

theorem Clean.ofWhileLoop {c : Expr} {header : Option BlockNode}
    (h : Clean f [.whileLoop c (Node.stripNextTurn nodes) header]) : Clean f nodes := by
  unfold Clean at h
  rwa [Node.raws_whileLoop, Node.raws_stripNextTurn] at h

theorem Clean.ofForLoop {i v : Nat} {e : Expr} {setup latch : BlockNode}
    (h : Clean f [.forLoop i v e (Node.stripNextTurn nodes) setup latch]) : Clean f nodes := by
  unfold Clean at h
  rwa [Node.raws_forLoop, Node.raws_stripNextTurn] at h

end Clean

/-! ## Steps -/

variable {p : Plan} {r : Region} {id x y : Nat} {w : Ways}

/-- A step out of a region leads to where it was meant to. -/
theorem follows_exit? {node : Node} (h : r.exit? p.flow x = some node) (next : Option Nat) :
    p.flow.Follows (runAll p.tested [node]) (.block x) (LoopFrame.ways p.flow r.loop next) := by
  rw [Node.runAll_singleton]
  unfold Region.exit? at h
  split at h
  · rename_i hturn
    cases h
    unfold Region.isNextTurn at hturn
    split at hturn
    · rename_i frame hframe
      refine Flow.follows_skip ?_
      rw [eq_of_beq hturn, hframe]
      rfl
    · cases hturn
  split at h
  · rename_i hexit
    cases h
    unfold Region.isLoopExit at hexit
    split at hexit
    · rename_i frame hframe
      refine Flow.follows_skip ?_
      show (r.loop.bind fun l => l.exit.map Point.block) = some (.block x)
      rw [hframe, Option.bind_some, ← eq_of_beq hexit]
      rfl
    · cases hexit
  split at h
  · rename_i hend
    cases h
    refine Flow.follows_skip ?_
    rw [hend.1]
    rfl
  · cases h

theorem follows_armExit? {node : Node} (h : r.armExit? p.flow x = some node) (next : Option Nat) :
    p.flow.Follows (runAll p.tested [node]) (.block x) (LoopFrame.ways p.flow r.loop next) := by
  unfold Region.armExit? at h
  split at h
  · cases h
  · exact follows_exit? h next

theorem follows_nil (h : w.falls = some (.block x)) :
    p.flow.Follows (runAll p.tested []) (.block x) w :=
  Flow.follows_skip h

/-! ## Tests -/

/-- The block of a test, with its two arms. -/
structure Branches (p : Plan) (id : Nat) (c : Expr) (x y : Nat) : Prop where
  real : id ≠ p.flow.exit
  ending : p.flow.ending id = .cond x y
  tested : p.tested id = some c

theorem Branches.follows_emit {c : Expr} (h : Branches p id c x y)
    (hw : w.falls = some (.arms x y)) : p.flow.Follows (Course.emit id) (.block id) w := by
  refine Flow.follows_emit h.real ?_ hw
  unfold Flow.pointAfter
  rw [h.ending]

/-- A conditional on the test of a block. -/
theorem Branches.follows_straight {c : Expr} {a b : List Node} (h : Branches p id c x y)
    (ha : p.flow.Follows (runAll p.tested a) (.block x) w)
    (hb : p.flow.Follows (runAll p.tested b) (.block y) w) :
    p.flow.Follows (run p.tested (.ifElse (some id) c a b)) (.arms x y) w := by
  rw [run, Option.bind_some, h.tested, Expr.senseOf_self]
  exact ha.branch hb

/-- A conditional on the negated test of a block. -/
theorem Branches.follows_negated {c : Expr} {a b : List Node} (h : Branches p id c x y)
    (ha : p.flow.Follows (runAll p.tested a) (.block y) w)
    (hb : p.flow.Follows (runAll p.tested b) (.block x) w) :
    p.flow.Follows (run p.tested (.ifElse (some id) c.negate a b)) (.arms x y) w := by
  rw [run, Option.bind_some, h.tested, Expr.senseOf_negate]
  exact hb.branch ha

/-! ## Loop bodies -/

theorem follows_of_nextTurn {a : Course} {q : Point}
    (h : p.flow.Follows (a.andThen (.skip .turns)) q w) :
    p.flow.Follows a q { w with falls := w.turns } := by
  intro s
  have hs := h s
  rcases Course.falls_or a s with ⟨t, s', hrun⟩ | hnot
  · rw [Course.andThen_of_falls hrun] at hs
    obtain ⟨next, hnext, hpath, hlen⟩ := hs
    rw [hrun]
    refine ⟨next, hnext, ?_, ?_⟩
    · simpa [Course.skip, Run.prepend] using hpath
    · simpa [Course.skip, Run.prepend] using hlen
  · rw [Course.andThen_of_not_falls hnot] at hs
    refine hs.congr fun way s' hrest => ?_
    cases way with
    | falls => exact absurd hrest (hnot s')
    | turns => rfl
    | leaves => rfl
    | ends => rfl

/-- A loop body still follows the graph without the steps at its end. -/
theorem follows_stripNextTurn {nodes : List Node} {q : Point}
    (h : p.flow.Follows (runAll p.tested nodes) q w) (hw : w.turns = w.falls) :
    p.flow.Follows (runAll p.tested (Node.stripNextTurn nodes)) q w := by
  induction nodes using List.reverseRecOn with
  | nil => exact h
  | append_singleton body n ih =>
    cases hn : n.isNextTurn with
    | true =>
      rw [Node.eq_nextTurn_of_isNextTurn hn, Node.runAll_append, Node.runAll_singleton] at h
      rw [Node.eq_nextTurn_of_isNextTurn hn, Node.stripNextTurn_append]
      have hsame : { w with falls := w.turns } = w :=
        congrArg (fun next => { w with falls := next }) hw
      exact ih (hsame ▸ follows_of_nextTurn h)
    | false =>
      rw [Node.stripNextTurn_append_of_ne body hn]
      exact h

theorem moves_stripNextTurn {nodes : List Node} (h : (runAll p.tested nodes).Moves) :
    (runAll p.tested (Node.stripNextTurn nodes)).Moves := by
  induction nodes using List.reverseRecOn with
  | nil => exact h
  | append_singleton body n ih =>
    cases hn : n.isNextTurn with
    | true =>
      rw [Node.eq_nextTurn_of_isNextTurn hn, Node.stripNextTurn_append]
      refine ih fun s s' way hrun => ?_
      rw [Node.eq_nextTurn_of_isNextTurn hn, Node.runAll_append, Node.runAll_singleton] at h
      by_cases hway : way = .falls
      · subst hway
        refine h s s' .turns ?_
        rw [Course.andThen_of_falls hrun]
        rfl
      · refine h s s' way ?_
        rw [Course.andThen_of_not_falls, hrun]
        intro s₂ hs₂
        rw [hrun] at hs₂
        cases hs₂
        exact hway rfl
    | false =>
      rw [Node.stripNextTurn_append_of_ne body hn]
      exact h

/-! ## Arms -/

/-- Bodies that follow the graph. -/
def Simulates (p : Plan) (B : Bodies) : Prop :=
  ∀ entering start r V nodes V', B entering start r V nodes V' → Clean p.flow nodes →
    p.flow.Follows (runAll p.tested nodes) (.block start) (r.ways p.flow) ∧
      (entering = true → (runAll p.tested nodes).Moves)

variable {B : Bodies} {V V' : BlockSet} {nodes : List Node} {start stop : Nat}

theorem follows_arm (hB : Simulates p B) (h : Arm B r start stop V nodes V')
    (hclean : Clean p.flow nodes) (hstop : r.stop = some stop) :
    p.flow.Follows (runAll p.tested nodes) (.block start) (r.ways p.flow) := by
  cases h with
  | empty heq =>
    refine follows_nil ?_
    rw [Region.ways, LoopFrame.ways, hstop, heq]
    rfl
  | body _ hbody => exact (hB _ _ _ _ _ _ hbody hclean).1

/-- What never falls follows the graph wherever falling leads. -/
theorem follows_ways {c : Course} {q : Point} {loop : Option LoopFrame}
    (h : p.flow.Follows c q (LoopFrame.ways p.flow loop none)) (next : Option Nat) :
    p.flow.Follows c q (LoopFrame.ways p.flow loop next) := by
  refine h.mono fun way point hpoint => ?_
  cases way with
  | falls => cases hpoint
  | turns => exact hpoint
  | leaves => exact hpoint
  | ends => exact hpoint

/-- A body that stops nowhere. -/
theorem follows_open (hB : Simulates p B) (h : B false start { r with stop := none } V nodes V')
    (hclean : Clean p.flow nodes) {next : Option Nat} :
    p.flow.Follows (runAll p.tested nodes) (.block start) (LoopFrame.ways p.flow r.loop next) :=
  follows_ways (hB _ _ _ _ _ _ h hclean).1 next

/-! ## Conditionals -/

/-- The node of a conditional whose arms meet. -/
theorem Branches.follows_ifElseOf {c : Expr} {a b : List Node} (h : Branches p id c x y)
    (ha : p.flow.Follows (runAll p.tested a) (.block x) w)
    (hb : p.flow.Follows (runAll p.tested b) (.block y) w) :
    p.flow.Follows (run p.tested (ifElseOf id c a b)) (.arms x y) w := by
  unfold ifElseOf
  split
  · rename_i hempty
    have hnil : a = [] := by
      cases a with
      | nil => rfl
      | cons _ _ => cases hempty
    exact h.follows_negated hb (hnil ▸ ha)
  · exact h.follows_straight ha hb

theorem clean_ifElseOf {f : Flow} {c : Expr} {a b : List Node}
    (h : Clean f [ifElseOf id c a b]) : Clean f a ∧ Clean f b := by
  have hraws : Node.raws [ifElseOf id c a b] = Node.raws a ++ Node.raws b := by
    unfold ifElseOf
    split
    · rename_i hempty
      have hnil : a = [] := by
        cases a with
        | nil => rfl
        | cons _ _ => cases hempty
      rw [hnil, Node.raws_ifElse, Node.raws_nil, List.append_nil, List.nil_append]
    · exact Node.raws_ifElse _ _ _ _
  unfold Clean at h
  rw [hraws] at h
  exact ⟨fun r hr => h r (List.mem_append_left _ hr), fun r hr => h r (List.mem_append_right _ hr)⟩

theorem raws_continueEarly (r : Region) (id join : Nat) (n : Node) :
    ∀ x, x ∈ Node.raws (Construct.continueEarly r id join n) ↔ x ∈ Node.raws [n] := by
  intro x
  unfold Construct.continueEarly
  split
  · dsimp only
    split
    · exact Iff.rfl
    split
    · rw [Node.raws_cons]
      simp [Node.raws_append]
    split
    · rw [Node.raws_cons]
      simp [Node.raws_append, or_comm]
    · exact Iff.rfl
  · exact Iff.rfl

/-- The next turn of the nearest loop. -/
theorem turns_of_isNextTurn (h : r.isNextTurn x = true) (next : Option Nat) :
    (LoopFrame.ways p.flow r.loop next).turns = some (.block x) := by
  unfold Region.isNextTurn at h
  split at h
  · rename_i frame hframe
    rw [eq_of_beq h, hframe]
    rfl
  · cases h

/-- An arm that goes on with the next turn, where it would have met the other one. -/
theorem follows_nextTurn {a : List Node} {join : Nat} (hturn : r.isNextTurn join = true)
    (ha : p.flow.Follows (runAll p.tested a) (.block x) (LoopFrame.ways p.flow r.loop (some join)))
    (next : Option Nat) : p.flow.Follows (runAll p.tested (a ++ [.nextTurn])) (.block x)
      (LoopFrame.ways p.flow r.loop next) := by
  rw [Node.runAll_append, Node.runAll_singleton]
  refine Flow.Follows.andThen (o := some (.block join)) ha ?_
  rintro _ ⟨⟩
  exact Flow.follows_skip (turns_of_isNextTurn hturn next)

/-- One arm before a conditional's other arm, which follows it. -/
theorem Branches.follows_continueEarly {c : Expr} {a b : List Node} {join : Nat}
    (h : Branches p id c x y)
    (ha : p.flow.Follows (runAll p.tested a) (.block x) (LoopFrame.ways p.flow r.loop (some join)))
    (hb : p.flow.Follows (runAll p.tested b) (.block y) (LoopFrame.ways p.flow r.loop (some join))) :
    p.flow.Follows (runAll p.tested (Construct.continueEarly r id join (ifElseOf id c a b)))
      (.arms x y) (LoopFrame.ways p.flow r.loop (some join)) := by
  have hplain := h.follows_ifElseOf ha hb
  unfold ifElseOf at hplain ⊢
  split
  · rename_i hempty
    rw [if_pos hempty] at hplain
    simpa [Construct.continueEarly, Node.isEmptyBody] using hplain
  · rename_i hempty
    rw [if_neg hempty] at hplain
    unfold Construct.continueEarly
    dsimp only
    split
    · simpa using hplain
    rename_i hturn
    have hturn : r.isNextTurn join = true := by simpa using hturn
    split
    · rw [runAll]
      refine Flow.Follows.andThen (o := some (.block y)) ?_ ?_
      · exact h.follows_straight (follows_nextTurn hturn ha (some y)) (follows_nil rfl)
      · rintro _ ⟨⟩
        exact hb
    split
    · rw [runAll]
      refine Flow.Follows.andThen (o := some (.block x)) ?_ ?_
      · exact h.follows_negated (follows_nextTurn hturn hb (some x)) (follows_nil rfl)
      · rintro _ ⟨⟩
        exact ha
    · simpa using hplain

/-! ## Matches -/

theorem clean_cases {f : Flow} {s : Expr} {bodies : List (Expr × List Node)}
    {fallback : Option (List Node)} {tests : List BlockNode}
    (h : Clean f [.matching (some id) s bodies fallback tests]) :
    (∀ c ∈ bodies, Clean f c.2) ∧ ∀ nodes, fallback = some nodes → Clean f nodes := by
  unfold Clean at h
  rw [Node.raws_matching] at h
  refine ⟨fun c hc r hr => h r (List.mem_append_left _ (List.mem_flatMap.mpr ⟨c, hc, hr⟩)), ?_⟩
  rintro nodes rfl r hr
  exact h r (List.mem_append_right _ hr)

/-- The arms of a match: they have the constants of the chain and follow the graph. -/
theorem follows_arms (hB : Simulates p B) {cases : List (Expr × Nat)}
    {bodies : List (Expr × List Node)} (h : Arms B r stop cases V bodies V')
    (hclean : ∀ c ∈ bodies, Clean p.flow c.2) (hstop : r.stop = some stop) :
    List.Forall₂ (fun c b => b.1 = c.1 ∧
      p.flow.Follows (runAll p.tested b.2) (.block c.2) (r.ways p.flow)) cases bodies := by
  induction h with
  | nil V => exact .nil
  | cons harm _ ih =>
    obtain ⟨hhead, htail⟩ := List.forall_mem_cons.mp hclean
    exact .cons ⟨rfl, follows_arm hB harm hhead hstop⟩ (ih htail)

theorem Plan.tested_eq {l : Lifted} (h : p.lift id = .ok l) : p.tested id = l.value := by
  unfold Plan.tested
  rw [h]
  rfl

/-- A comparison of a chain is a conditional. -/
theorem branches_of_link {s : Chain.Scope} {current a b : Nat} {l : Lifted} {e : Expr}
    (hcan : Chain.canFollow p s V current id = true) (hlift : p.lift id = .ok l)
    (hvalue : l.value = some e) (hending : (p.flow.ending id).arms? = some (a, b)) :
    Branches p id e a b := by
  unfold Chain.canFollow at hcan
  simp only [Bool.and_eq_true, Bool.not_eq_true', Bool.or_eq_false_iff, beq_eq_false_iff_ne,
    beq_iff_eq] at hcan
  obtain ⟨⟨⟨⟨⟨⟨⟨⟨_, hexit⟩, _⟩, _⟩, _⟩, hkind⟩, _⟩, _⟩, _⟩ := hcan
  refine ⟨hexit, ?_, (Plan.tested_eq hlift).trans hvalue⟩
  cases hcond : p.flow.ending id <;> rw [hcond] at hkind hending <;> cases hkind
  cases hending
  rfl

/-- The arms of a chain, tried in order. -/
theorem follows_runCases {s : Chain.Scope} {current fallback last : Nat} {cases : List (Expr × Nat)}
    {tests : List Nat} (h : Links p s V current fallback cases tests last) {pattern : Expr}
    {body : List Node} {bodies : List (Expr × List Node)} {rest : Course}
    (hcurrent : Branches p current (.binary .eq s.subject pattern) x fallback)
    (hbody : p.flow.Follows (runAll p.tested body) (.block x) w)
    (hbodies : List.Forall₂ (fun c b => b.1 = c.1 ∧
      p.flow.Follows (runAll p.tested b.2) (.block c.2) w) cases bodies)
    (hrest : p.flow.Follows rest (.block last) w) :
    p.flow.Follows (Node.runCases p.tested s.subject ((pattern, body) :: bodies)
      (some current :: tests.map some) rest) (.arms x fallback) w := by
  induction h generalizing pattern body bodies x with
  | done current fallback =>
    cases hbodies
    rw [Node.runCases, Option.bind_some, hcurrent.tested, Expr.senseOf_self]
    · exact hbody.branch hrest
    · rintro _ _ ⟨⟩
  | @link current id a b last pattern' l cases tests hcan hlift _ _ hvalue hending _ ih =>
    cases hbodies with
    | cons hfirst hbodies =>
      rename_i first bodies
      obtain ⟨e, nodes⟩ := first
      obtain ⟨rfl, hnodes⟩ := hfirst
      obtain ⟨e, he, hcompared⟩ := Option.bind_eq_some_iff.mp hvalue
      have hid := branches_of_link hcan hlift (comparison?_eq hcompared ▸ he) hending
      rw [List.map_cons, Node.runCases, Option.bind_some, hcurrent.tested, Expr.senseOf_self]
      refine hbody.branch ?_
      refine Flow.Follows.andThen (o := some (.arms a b)) (hid.follows_emit rfl) ?_
      rintro _ ⟨⟩
      exact ih hid hnodes hbodies hrest

/-! ## Constructs -/

/-- A construct that follows the graph from a block, which it runs first. -/
structure FollowsFrom (p : Plan) (id : Nat) (r : Region) (c : Construct) : Prop where
  follows : p.flow.Follows (runAll p.tested c.1) (.block id) (LoopFrame.ways p.flow r.loop c.2)
  moves : (runAll p.tested c.1).Moves

/-- A construct that begins with a block that is run. -/
theorem followsFrom_block {b : BlockNode} {rest : List Node} {next : Option Nat} {q : Point}
    (hid : b.id ≠ p.flow.exit) (hq : p.flow.pointAfter b.id = some q)
    (hrest : p.flow.Follows (runAll p.tested rest) q (LoopFrame.ways p.flow r.loop next)) :
    FollowsFrom p b.id r (.block b :: rest, next) := by
  constructor
  · rw [runAll, run]
    refine Flow.Follows.andThen (o := some q) (Flow.follows_emit hid hq rfl) ?_
    rintro _ ⟨⟩
    exact hrest
  · rw [runAll, run]
    exact (Course.moves_emit b.id).andThen _

theorem follows_conditional (hB : Simulates p B) {statements : List Stmt} {c : Expr}
    (hid : Branches p id c x y) (hreach : id ∈ p.flow.reachable) {construct : Construct}
    (h : Conditional p B id (.block (p.blockNode id statements)) c x y r V construct V')
    (hclean : Clean p.flow construct.1) : FollowsFrom p id r construct := by
  have hq : p.flow.pointAfter id = some (.arms x y) := by
    unfold Flow.pointAfter
    rw [hid.ending]
  have hhead {rest : List Node} {next : Option Nat}
      (hrest : p.flow.Follows (runAll p.tested rest) (.arms x y)
        (LoopFrame.ways p.flow r.loop next)) :
      FollowsFrom p id r (.block (p.blockNode id statements) :: rest, next) :=
    followsFrom_block (b := p.blockNode id statements) hid.real hq hrest
  have hone {n : Node} {next : Option Nat}
      (hrun : p.flow.Follows (run p.tested n) (.arms x y) (LoopFrame.ways p.flow r.loop next)) :
      FollowsFrom p id r ([.block (p.blockNode id statements), n], next) :=
    hhead (by rwa [Node.runAll_singleton])
  cases h with
  | steps ht he =>
    exact hone (hid.follows_straight (follows_armExit? ht none) (follows_armExit? he none))
  | falseSteps ht he =>
    exact hone (hid.follows_negated (follows_armExit? he (some x)) (follows_nil rfl))
  | trueSteps ht he =>
    exact hone (hid.follows_straight (follows_armExit? ht (some y)) (follows_nil rfl))
  | chained ht he hjoin hholds hvalue hlinks harms hfallback =>
    obtain ⟨hbodies, hnodes⟩ := clean_cases hclean.tail
    have hall := follows_arms hB harms hbodies rfl
    rw [comparison?_eq hvalue] at hid
    refine hone ?_
    cases hall with
    | cons hfirst hrest =>
      rename_i first _
      obtain ⟨e, nodes⟩ := first
      obtain ⟨rfl, hfirst⟩ := hfirst
      rw [run, List.map_map]
      refine follows_runCases hlinks hid hfirst hrest ?_
      cases hfallback with
      | absent heq => exact follows_nil (by rw [heq]; rfl)
      | present _ hbody => exact (hB _ _ _ _ _ _ hbody (hnodes _ rfl)).1
  | meets ht he hjoin hexit hinside htrue hfalse =>
    have hboth : Clean p.flow [ifElseOf id c _ _] := fun r hr =>
      hclean.tail r ((raws_continueEarly _ _ _ _ r).mpr hr)
    obtain ⟨ha, hb⟩ := clean_ifElseOf hboth
    exact hhead (hid.follows_continueEarly (follows_arm hB htrue ha rfl)
      (follows_arm hB hfalse hb rfl))
  | falseDeparts ht he _ hleaves hbody =>
    exact hone (hid.follows_negated (follows_open hB hbody hclean.tail.ofIfElse) (follows_nil rfl))
  | trueDeparts ht he _ hleaves hbody =>
    exact hone (hid.follows_straight (follows_open hB hbody hclean.tail.ofIfElse) (follows_nil rfl))
  | meetsAtEnd ht he hjoin htrue hfalse =>
    obtain ⟨ha, hb⟩ := clean_ifElseOf hclean.tail
    exact hone (hid.follows_ifElseOf (follows_arm hB htrue ha rfl) (follows_arm hB hfalse hb rfl))
  | noJoin => exact (hclean.not_raw hreach).elim

theorem follows_looped (hB : Simulates p B) {l : Loop}
    (hl : p.flow.loopAt? id = some l) (hreach : id ∈ p.flow.reachable) (hreal : id < p.flow.exit)
    {construct : Construct} (h : Looped p B l V construct V') (hclean : Clean p.flow construct.1) :
    FollowsFrom p id r construct := by
  have hid : l.header = id := Flow.Analysed.loopAt?_header hl
  subst hid
  cases h with
  | irreducible => exact (hclean.not_raw hreach).elim
  | @endless body _ _ hbody =>
    obtain ⟨hfollows, hmoves⟩ := hB _ _ _ _ _ _ hbody hclean.ofWhileLoop
    have hmoves := moves_stripNextTurn (hmoves rfl)
    have hturn := follows_stripNextTurn (follows_ways hfollows (some l.header)) rfl
    have hrun : runAll p.tested [.whileLoop (.bool true) (Node.stripNextTurn body) none] =
        Course.loop (runAll p.tested (Node.stripNextTurn body)) := by
      rw [Node.runAll_singleton, run, if_pos rfl]
    exact ⟨hrun ▸ Flow.Follows.loop hmoves.busy hturn, hrun ▸ hmoves.loop⟩
  | @tested lifted c condition x y start exit body _ _ hending hlift _ _ hvalue hgoes hbody =>
    have hid : Branches p l.header c x y :=
      ⟨Nat.ne_of_lt hreal, hending, (Plan.tested_eq hlift).trans hvalue⟩
    have hbody : p.flow.Follows (runAll p.tested body) (.block start)
        (LoopFrame.ways p.flow (some ⟨l.header, some exit, l.header⟩) (some l.header)) := by
      cases hbody with
      | empty heq => exact follows_nil (by rw [heq]; rfl)
      | body _ hbody =>
        exact follows_ways (hB _ _ _ _ _ _ hbody hclean.ofWhileLoop).1 _
    have hbody := follows_stripNextTurn hbody rfl
    have hrun : runAll p.tested [.whileLoop condition (Node.stripNextTurn body)
        (some (p.blockNode l.header))] = Course.loop ((Course.emit l.header).andThen
          (Course.test (condition.senseOf (p.tested l.header))
            (runAll p.tested (Node.stripNextTurn body)) (Course.skip .leaves))) := by
      rw [Node.runAll_singleton, run]
      rfl
    have hmoves := (Course.moves_emit l.header).andThen
      (Course.test (condition.senseOf (p.tested l.header))
        (runAll p.tested (Node.stripNextTurn body)) (Course.skip .leaves))
    refine ⟨hrun ▸ Flow.Follows.loop hmoves.busy ?_, hrun ▸ hmoves.loop⟩
    refine Flow.Follows.andThen (o := some (.arms x y)) (hid.follows_emit rfl) ?_
    rintro _ ⟨⟩
    rw [hid.tested]
    cases hgoes with
    | whenTrue =>
      rw [Expr.senseOf_self]
      exact hbody.branch (Flow.follows_skip rfl)
    | whenFalse =>
      rw [Expr.senseOf_negate]
      exact (Flow.follows_skip rfl).branch hbody

theorem follows_iterated (hf : p.flow.Analysed) (hB : Simulates p B) {body exit : Nat}
    (hending : p.flow.ending id = .iterBegin body exit) (hreach : id ∈ p.flow.reachable)
    (hreal : id < p.flow.exit) {construct : Construct}
    (h : Iterated p B id body exit V construct V') (hclean : Clean p.flow construct.1) :
    FollowsFrom p id r construct := by
  cases h with
  | noAdvance => exact (hclean.not_raw hreach).elim
  | notLifted => exact (hclean.not_raw hreach).elim
  | @turns l latch iterator element begun advanced iterable nodes _ hadvance _ _ _ _ _ hbody =>
    have hlatch := (advances_of_advance? hadvance).ending
    have hlatchReal : latch ≠ p.flow.exit := by
      intro heq
      have hexit : p.flow.ending p.flow.exit = .exit := hf.proper.ending_exit
      rw [heq, hexit] at hlatch
      cases hlatch
    have hpoint {i : Nat} (h : p.flow.ending i = .iterBegin body exit ∨
        p.flow.ending i = .iterNext body exit) : p.flow.pointAfter i = some (.arms body exit) := by
      unfold Flow.pointAfter
      rcases h with h | h <;> rw [h]
    have hbody := follows_stripNextTurn (follows_arm hB hbody hclean.ofForLoop rfl) rfl
    have hadvances : p.flow.Follows ((Course.emit latch).andThen
        (Course.branch (Course.skip .falls) (Course.skip .leaves))) (.block latch)
        { falls := some (.block body), turns := some (.block body), leaves := some (.block exit)
          ends := some (.block p.flow.exit) } := by
      refine Flow.Follows.andThen (o := some (.arms body exit))
        (Flow.follows_emit hlatchReal (hpoint (.inr hlatch)) rfl) ?_
      rintro _ ⟨⟩
      exact (Flow.follows_skip rfl).branch (Flow.follows_skip rfl)
    constructor
    · rw [Node.runAll_singleton, run]
      refine Flow.Follows.andThen (o := some (.arms body exit))
        (Flow.follows_emit (Nat.ne_of_lt hreal) (hpoint (.inl hending)) rfl) ?_
      rintro _ ⟨⟩
      refine Flow.Follows.branch (Flow.Follows.loop ?_ ?_) (Flow.follows_skip rfl)
      · exact ((Course.moves_emit latch).andThen _).busy_turn _
      · exact Flow.Follows.turn hbody hadvances
    · rw [Node.runAll_singleton, run]
      exact (Course.moves_emit id).andThen _

theorem follows_plain (hf : p.flow.Analysed) (hB : Simulates p B) (hreach : id ∈ p.flow.reachable)
    (hreal : id < p.flow.exit) {construct : Construct} (h : Plain p B id r V construct V')
    (hclean : Clean p.flow construct.1) : FollowsFrom p id r construct := by
  have hne := Nat.ne_of_lt hreal
  cases h with
  | notLifted => exact (hclean.not_raw hreach).elim
  | conditional hlift hvalue hending h =>
    exact follows_conditional hB ⟨hne, hending, (Plan.tested_eq hlift).trans hvalue⟩ hreach h hclean
  | @ret l exit hlift hending =>
    refine followsFrom_block (b := p.blockNode id l.statements) (q := .block exit) hne ?_ ?_
    · show p.flow.pointAfter id = _
      unfold Flow.pointAfter
      rw [hending]
    · rw [Node.runAll_singleton, hf.proper.ret id exit hending]
      exact Flow.follows_skip rfl
  | @straight l t hlift hending =>
    refine followsFrom_block (b := p.blockNode id l.statements) (q := .block t) hne ?_
      (follows_nil rfl)
    show p.flow.pointAfter id = _
    unfold Flow.pointAfter
    rcases hending with h | h <;> rw [h]

/-- **Every construct** follows the graph when its bodies do. -/
theorem follows_made (hf : p.flow.Analysed) (hB : Simulates p B) (hreach : id ∈ p.flow.reachable)
    (hreal : id < p.flow.exit) {construct : Construct} (h : Made p B id r V construct V')
    (hclean : Clean p.flow construct.1) : FollowsFrom p id r construct := by
  cases h with
  | loop hl _ h => exact follows_looped hB hl hreach hreal h hclean
  | iteration _ hending h => exact follows_iterated hf hB hending hreach hreal h hclean
  | strayAdvance => exact (hclean.not_raw hreach).elim
  | plain _ h => exact follows_plain hf hB hreach hreal h hclean

/-! ## Bodies -/

theorem simulates_onwards (hf : p.flow.Analysed) (hB : Simulates p B) :
    Simulates p (Onwards p B) := by
  intro entering start r V nodes V' h hclean
  cases h with
  | ends h =>
    refine ⟨?_, fun h => absurd h Bool.false_ne_true⟩
    obtain ⟨hstop, rfl⟩ | ⟨-, n, hn, rfl⟩ := ends_of_onward h
    · exact follows_nil (by rw [Region.ways, LoopFrame.ways, hstop]; rfl)
    · exact follows_exit? hn r.stop
  | jumps =>
    obtain ⟨id, hid, _⟩ := hclean _ (List.mem_singleton_self _)
    cases hid
  | stops henters hmade =>
    have hfrom := follows_made hf hB henters.reach henters.real hmade hclean
    exact ⟨follows_ways hfrom.follows r.stop, fun _ => hfrom.moves⟩
  | goesOn henters hmade hrest =>
    have hfrom := follows_made hf hB henters.reach henters.real hmade hclean.left
    have hrest := (hB _ _ _ _ _ _ hrest hclean.right).1
    rw [Node.runAll_append]
    refine ⟨Flow.Follows.andThen hfrom.follows ?_, fun _ => hfrom.moves.andThen _⟩
    rintro _ ⟨⟩
    exact hrest

/-- **Every body** follows the graph. -/
theorem simulates_derived (hf : p.flow.Analysed) (fuel : Nat) : Simulates p (Derived p fuel) := by
  induction fuel with
  | zero => exact fun _ _ _ _ _ _ h => h.elim
  | succ fuel ih => exact simulates_onwards hf ih

/-! ## Functions -/

/-- What the walk leaves over runs no block. -/
theorem runAll_leftoverNodes (V : BlockSet) (s : Supply) :
    runAll p.tested (leftoverNodes p V) s = ⟨[], some (.falls, s)⟩ := by
  refine leftoverNodes_induction (P := fun ns => runAll p.tested ns s = ⟨[], some (.falls, s)⟩) V rfl
    fun id reason ns _ _ ih => ?_
  rw [runAll, run, Course.andThen_of_falls rfl, ih]
  rfl

theorem trace_walked (hf : p.flow.Analysed) (h : Walked p nodes V)
    (hclean : Clean p.flow nodes) (s : Supply) :
    (runAll p.tested (nodes ++ leftoverNodes p V) s).trace =
      p.flow.path s.blocks 0 s.outcomes := by
  have hfollows := (simulates_derived hf _ _ _ _ _ _ _ h hclean).1 s
  have hend (s' : Supply) : p.flow.pathFrom (.block p.flow.exit) s' = [] := by
    rw [Flow.pathFrom]
    cases s'.blocks with
    | zero => rfl
    | succ n => exact if_pos rfl
  have htrace : (runAll p.tested nodes s).trace = p.flow.path s.blocks 0 s.outcomes := by
    cases hrun : runAll p.tested nodes s with
    | mk trace rest =>
      rw [hrun] at hfollows
      cases rest with
      | none => exact hfollows
      | some x =>
        obtain ⟨way, s'⟩ := x
        obtain ⟨next, hnext, hpath, -⟩ := hfollows
        have hexit : next = .block p.flow.exit := by
          cases way <;> cases hnext <;> rfl
        rw [hexit, hend, List.append_nil] at hpath
        exact hpath.symm
  rw [Node.runAll_append, ← htrace]
  rcases Course.falls_or (runAll p.tested nodes) s with ⟨t, s', hrun⟩ | hnot
  · rw [Course.andThen_of_falls hrun, runAll_leftoverNodes, hrun]
    exact List.append_nil t
  · rw [Course.andThen_of_not_falls hnot]

end Structuring

namespace Structured

open Structuring

variable {d : Dialect} {options : StructureOptions} {is : List Instruction} {length : Option Nat}

/-- **Trees run as the graph does.** When the tree of a function holds no raw code but the blocks
that are reported out of reach, the blocks that the tree runs for a finite or infinite sequence of
outcomes are those of the path that the graph takes from its entry, at any count of blocks. -/
theorem trace_eq_path {s : Structured}
    (h : (ofInstructions d options is length).value = .ok s)
    (hraw : ∀ r ∈ Node.raws s.body, ∃ id ∈ s.unreachable, r.block = some id) :
    ∃ f, Flow.build is length = .ok f ∧ ∀ (n : Nat) (outcomes : Stream'.Seq Bool),
      (Node.runAll (Plan.tested ⟨d, f, options⟩) s.body ⟨n, outcomes⟩).trace =
        f.path n 0 outcomes := by
  unfold ofInstructions at h
  split at h
  · rename_i hempty
    cases h
    rw [List.isEmpty_iff.mp hempty]
    exact ⟨_, rfl, fun n _ => by cases n <;> rfl⟩
  · split at h
    · cases h
    · rename_i f hbuild
      refine ⟨f, hbuild, fun n outcomes => ?_⟩
      have hf := Flow.analysed_of_build hbuild
      unfold ofPlan at h
      split at h
      · rename_i nodes w hrun
        cases h
        obtain ⟨walked, V, hwalked, rfl⟩ := tree_of_function hf (holds_start _) hrun
        have hclean : Clean f walked := by
          intro r hr
          obtain ⟨id, hid, hblock⟩ := hraw r (by
            show r ∈ Node.raws (walked ++ _)
            rw [Node.raws_append]
            exact List.mem_append_left _ hr)
          exact ⟨id, hblock, by simpa using (List.mem_filter.mp hid).2⟩
        exact trace_walked (p := ⟨d, f, options⟩) hf hwalked hclean ⟨n, outcomes⟩
      · cases h

/-- The code of a function of the oldest dialect: an iteration whose body assigns to its element
when another local allows. -/
def guardedIteration : List Instruction :=
  (Script.decode Registry.oldest [1, 0, 0, 0, 0, 0, 0, 0, 0, 0, 0, 4, 4, 0, 0, 0, 0, 21, 0, 0, 0,
    2, 0, 42, 1, 2, 21, 0, 2, 3, 41, 16, 0, 2, 2, 3, 3, 43, 1, 2, 7, 0]).functions.flatMap
    (·.instructions)

/-- The tree of an iteration with a conditional in its body. -/
theorem trace_eq_path_guardedIteration :
    guardedIteration.length = 7 ∧
      ∃ s, (ofInstructions Registry.oldest {} guardedIteration (some 21)).value = .ok s ∧
        (∀ r ∈ Node.raws s.body, ∃ id ∈ s.unreachable, r.block = some id) ∧
        ∃ f, Flow.build guardedIteration (some 21) = .ok f ∧
          ∀ (n : Nat) (outcomes : Stream'.Seq Bool),
            (Node.runAll (Plan.tested ⟨Registry.oldest, f, {}⟩) s.body ⟨n, outcomes⟩).trace =
              f.path n 0 outcomes := by
  have hvalue : ((ofInstructions Registry.oldest {} guardedIteration
      (some 21)).value.toOption.any fun s => (Node.raws s.body).isEmpty) = true := by
    decide +kernel
  obtain ⟨s, hs, hempty⟩ := (Option.any_eq_true _ _).mp hvalue
  have hs : (ofInstructions Registry.oldest {} guardedIteration (some 21)).value = .ok s := by
    cases hvalue : (ofInstructions Registry.oldest {} guardedIteration (some 21)).value with
    | error e =>
      rw [hvalue] at hs
      cases hs
    | ok found =>
      rw [hvalue] at hs
      cases hs
      rfl
  have hraw : ∀ r ∈ Node.raws s.body, ∃ id ∈ s.unreachable, r.block = some id := by
    rw [List.isEmpty_iff.mp hempty]
    exact fun _ hr => absurd hr List.not_mem_nil
  exact ⟨by decide +kernel, s, hs, hraw, trace_eq_path hs hraw⟩

end Structured

end Unscript
