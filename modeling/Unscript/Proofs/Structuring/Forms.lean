import Unscript.Proofs.Registry.Concrete
import Unscript.Proofs.Structuring.Origin
import Unscript.Proofs.Structuring.Reconstruction
import Unscript.Proofs.Tree.Bound

/-!
# The form of trees

Steps out of a loop are made in the region of a loop only, and the region of a loop is where its body
is built. A match is made from a chain of comparisons if the dialect has matches and the chain has
enough cases; every comparison but the first leaves its block as a test.

* `Structuring.Suits`: a match that the dialect and the options allow.
* `Structuring.Formed`: nodes that may stand in a region.
* `Structured.WellFormed`: what holds of every tree.

Results:
* `Structuring.formed_walked`: the nodes that the walk builds may stand in its region.
* `Structured.wellFormed_of_ofInstructions`: every tree is well formed.
* `Structured.wellFormed_of_function`: no function of a registered dialect fails for a condition that
  is missing, and the tree of each is well formed and asks for values of its blocks.
-/

namespace Unscript

open Node (Each Enclosed boundAll preorderAll)

namespace Structuring

/-- A match that the dialect and the options allow: it has enough cases, its patterns are constants,
and every case but the first has the block of a test. Other nodes suit. -/
def Suits (d : Dialect) (options : StructureOptions) : Node → Prop
  | .matching _ _ cases _ tests =>
    d.supports "match" = true ∧ options.minCases ≤ cases.length ∧
      tests.length + 1 = cases.length ∧ ∀ c ∈ cases, c.1.isConst = true
  | _ => True

/-- Nodes that may stand in a region: their matches suit, and unless the region is in a loop they
have no steps out of one. -/
structure Formed (p : Plan) (loop : Option LoopFrame) (nodes : List Node) : Prop where
  suits : Each (Suits p.dialect p.options) nodes
  enclosed : loop = none → Enclosed nodes

variable {p : Plan} {B : Bodies} {loop : Option LoopFrame} {r : Region} {id x y start stop : Nat}
  {V V' : BlockSet} {a b nodes : List Node} {n : Node}

/-! ## Regions -/

theorem formed_nil : Formed p loop [] :=
  ⟨Node.each_nil, fun _ => Node.enclosed_nil⟩

theorem Formed.append (ha : Formed p loop a) (hb : Formed p loop b) : Formed p loop (a ++ b) :=
  ⟨ha.suits.append hb.suits,
    fun hloop => Node.enclosed_append.mpr ⟨ha.enclosed hloop, hb.enclosed hloop⟩⟩

theorem Formed.cons (hn : Formed p loop [n]) (hb : Formed p loop b) : Formed p loop (n :: b) :=
  hn.append hb

theorem formed_block (block : BlockNode) : Formed p loop [.block block] :=
  ⟨Node.each_lone trivial rfl, fun _ => Node.enclosed_lone rfl nofun nofun⟩

theorem formed_raw (raw : RawNode) : Formed p loop [.raw raw] :=
  ⟨Node.each_lone trivial rfl, fun _ => Node.enclosed_lone rfl nofun nofun⟩

theorem formed_ret (value : Option Expr) (implicit : Bool) : Formed p loop [.ret value implicit] :=
  ⟨Node.each_lone trivial rfl, fun _ => Node.enclosed_lone rfl nofun nofun⟩

theorem formed_ifElse {block : Option Nat} {c : Expr} :
    Formed p loop [.ifElse block c a b] ↔ Formed p loop a ∧ Formed p loop b := by
  constructor
  · intro h
    obtain ⟨-, ha, hb⟩ := Node.each_ifElse.mp h.suits
    exact ⟨⟨ha, fun hloop => (Node.enclosed_ifElse.mp (h.enclosed hloop)).1⟩,
      ⟨hb, fun hloop => (Node.enclosed_ifElse.mp (h.enclosed hloop)).2⟩⟩
  · rintro ⟨ha, hb⟩
    exact ⟨.ifElse trivial ha.suits hb.suits,
      fun hloop => Node.enclosed_ifElse.mpr ⟨ha.enclosed hloop, hb.enclosed hloop⟩⟩

theorem formed_matching {block : Option Nat} {s : Expr} {cases : List (Expr × List Node)}
    {fallback : Option (List Node)} {tests : List BlockNode}
    (hsuits : Suits p.dialect p.options (.matching block s cases fallback tests))
    (hcases : ∀ c ∈ cases, Formed p loop c.2) (hfallback : Formed p loop (fallback.getD [])) :
    Formed p loop [.matching block s cases fallback tests] :=
  ⟨.matching hsuits (fun c hc => (hcases c hc).suits) hfallback.suits, fun hloop =>
    Node.enclosed_matching.mpr ⟨fun c hc => (hcases c hc).enclosed hloop, hfallback.enclosed hloop⟩⟩

/-- A loop encloses the steps of its body, whatever region it stands in. -/
theorem formed_whileLoop {inner : Option LoopFrame} {c : Expr} {header : Option BlockNode}
    (h : Formed p inner a) : Formed p loop [.whileLoop c (Node.stripNextTurn a) header] :=
  ⟨.whileLoop trivial h.suits.stripNextTurn, fun _ => Node.enclosed_lone rfl nofun nofun⟩

theorem formed_forLoop {inner : Option LoopFrame} {i v : Nat} {e : Expr} {setup latch : BlockNode}
    (h : Formed p inner a) :
    Formed p loop [.forLoop i v e (Node.stripNextTurn a) setup latch] :=
  ⟨.forLoop trivial h.suits.stripNextTurn, fun _ => Node.enclosed_lone rfl nofun nofun⟩

/-- A block begins the next turn of a loop only in a region that is in one. -/
theorem formed_nextTurn (hturn : r.isNextTurn x = true) : Formed p r.loop [.nextTurn] := by
  refine ⟨Node.each_lone trivial rfl, fun hloop => ?_⟩
  unfold Region.isNextTurn at hturn
  rw [hloop] at hturn
  cases hturn

theorem formed_leaveLoop (hexit : r.isLoopExit x = true) : Formed p r.loop [.leaveLoop] := by
  refine ⟨Node.each_lone trivial rfl, fun hloop => ?_⟩
  unfold Region.isLoopExit at hexit
  rw [hloop] at hexit
  cases hexit

theorem formed_exit? {f : Flow} (h : r.exit? f x = some n) : Formed p r.loop [n] := by
  unfold Region.exit? at h
  split at h
  · rename_i hturn
    cases h
    exact formed_nextTurn hturn
  split at h
  · rename_i hexit
    cases h
    exact formed_leaveLoop hexit
  split at h
  · cases h
    exact formed_ret none true
  · cases h

theorem formed_armExit? {f : Flow} (h : r.armExit? f x = some n) : Formed p r.loop [n] := by
  unfold Region.armExit? at h
  split at h
  · cases h
  · exact formed_exit? h

/-! ## Conditionals -/

theorem formed_ifElseOf {c : Expr} (ha : Formed p loop a) (hb : Formed p loop b) :
    Formed p loop [ifElseOf id c a b] := by
  unfold ifElseOf
  split
  · exact formed_ifElse.mpr ⟨hb, formed_nil⟩
  · exact formed_ifElse.mpr ⟨ha, hb⟩

/-- A step to the next turn is put behind an arm only where there is a next turn. -/
theorem formed_continueEarly {join : Nat} (h : Formed p r.loop [n]) :
    Formed p r.loop (Construct.continueEarly r id join n) := by
  unfold Construct.continueEarly
  split
  · rename_i block c whenTrue whenFalse
    obtain ⟨htrue, hfalse⟩ := formed_ifElse.mp h
    dsimp only
    split
    · exact h
    rename_i hturn
    have hturn : Formed p r.loop [.nextTurn] := formed_nextTurn (x := join) (by simpa using hturn)
    split
    · exact (formed_ifElse.mpr ⟨htrue.append hturn, formed_nil⟩).cons hfalse
    split
    · exact (formed_ifElse.mpr ⟨hfalse.append hturn, formed_nil⟩).cons htrue
    · exact h
  · exact h

/-! ## Matches -/

/-- Every comparison of a chain leaves its block as a test. -/
theorem Links.length_tests {s : Chain.Scope} {current fallback last : Nat}
    {cases : List (Expr × Nat)} {tests : List Nat}
    (h : Links p s V current fallback cases tests last) : tests.length = cases.length := by
  induction h with
  | done => rfl
  | link _ _ _ _ _ _ _ ih => rw [List.length_cons, List.length_cons, ih]

/-- The match of a chain with enough cases. -/
theorem suits_chained {c subject pattern : Expr} {join last : Nat} {cases : List (Expr × Nat)}
    {tests : List Nat} {bodies : List (Expr × List Node)} {fallback : Option (List Node)}
    (hmatch : p.dialect.supports "match" = true) (hmin : p.options.minCases ≤ cases.length + 1)
    (hvalue : c.comparison? = some (subject, pattern))
    (hlinks : Links p ⟨subject, join, r⟩ V id y cases tests last)
    (hpatterns : bodies.map (·.1) = ((pattern, x) :: cases).map (·.1)) :
    Suits p.dialect p.options
      (.matching (some id) subject bodies fallback (tests.map (p.blockNode ·))) := by
  have hlength : bodies.length = cases.length + 1 := by
    simpa using congrArg List.length hpatterns
  refine ⟨hmatch, hlength ▸ hmin, ?_, fun c' hc' => ?_⟩
  · rw [List.length_map, hlinks.length_tests, hlength]
  · have hmem : c'.1 ∈ ((pattern, x) :: cases).map (·.1) := hpatterns ▸ List.mem_map_of_mem hc'
    rw [List.map_cons, List.mem_cons] at hmem
    rcases hmem with heq | hmem
    · exact heq ▸ isConst_of_comparison? hvalue
    · obtain ⟨c₀, hc₀, heq⟩ := List.mem_map.mp hmem
      obtain ⟨e, -, hcompared⟩ := hlinks.compares c₀ hc₀
      exact heq ▸ isConst_of_comparison? hcompared

/-! ## Bodies -/

/-- Bodies that may stand in the regions they are built in. -/
def Forms (p : Plan) (B : Bodies) : Prop :=
  ∀ entering start r V nodes V', B entering start r V nodes V' → Formed p r.loop nodes

theorem formed_arm (hB : Forms p B) (h : Arm B r start stop V nodes V') :
    Formed p r.loop nodes := by
  cases h with
  | empty => exact formed_nil
  | body _ hbody => exact hB _ _ _ _ _ _ hbody

theorem formed_arms (hB : Forms p B) {cases : List (Expr × Nat)}
    {bodies : List (Expr × List Node)} (h : Arms B r stop cases V bodies V') :
    ∀ c ∈ bodies, Formed p r.loop c.2 := by
  induction h with
  | nil V => exact fun _ hc => absurd hc List.not_mem_nil
  | cons harm _ ih => exact List.forall_mem_cons.mpr ⟨formed_arm hB harm, ih⟩

theorem formed_fallback (hB : Forms p B) {fallback : Option (List Node)}
    (h : Fallback B r start stop V fallback V') : Formed p r.loop (fallback.getD []) := by
  cases h with
  | absent => exact formed_nil
  | present _ hbody => exact hB _ _ _ _ _ _ hbody

/-- The arms of a conditional stop elsewhere, but in the same loop. -/
theorem formed_conditional (hB : Forms p B) {block : BlockNode} {c : Expr} {construct : Construct}
    (h : Conditional p B id (.block block) c x y r V construct V') :
    Formed p r.loop construct.1 := by
  have hhead : Formed p r.loop [.block block] := formed_block block
  cases h with
  | steps ht he =>
    exact hhead.cons (formed_ifElse.mpr ⟨formed_armExit? ht, formed_armExit? he⟩)
  | falseSteps ht he => exact hhead.cons (formed_ifElse.mpr ⟨formed_armExit? he, formed_nil⟩)
  | trueSteps ht he => exact hhead.cons (formed_ifElse.mpr ⟨formed_armExit? ht, formed_nil⟩)
  | chained ht he hjoin hholds hvalue hlinks harms hfallback hmatch hmin =>
    have hbodies := formed_arms hB harms
    have hlast := formed_fallback hB hfallback
    exact hhead.cons (formed_matching (suits_chained hmatch hmin hvalue hlinks harms.patterns_eq)
      hbodies hlast)
  | meets ht he hjoin hexit hinside htrue hfalse =>
    have htrue := formed_arm hB htrue
    have hfalse := formed_arm hB hfalse
    exact hhead.cons (formed_continueEarly (formed_ifElseOf htrue hfalse))
  | falseDeparts ht he houtside hleaves hbody =>
    have hbody := hB _ _ _ _ _ _ hbody
    exact hhead.cons (formed_ifElse.mpr ⟨hbody, formed_nil⟩)
  | trueDeparts ht he houtside hleaves hbody =>
    have hbody := hB _ _ _ _ _ _ hbody
    exact hhead.cons (formed_ifElse.mpr ⟨hbody, formed_nil⟩)
  | meetsAtEnd ht he hjoin htrue hfalse =>
    have htrue := formed_arm hB htrue
    have hfalse := formed_arm hB hfalse
    exact hhead.cons (formed_ifElseOf htrue hfalse)
  | noJoin => exact formed_raw _

theorem formed_looped (hB : Forms p B) {l : Loop} {construct : Construct}
    (h : Looped p B l V construct V') : Formed p loop construct.1 := by
  cases h with
  | irreducible => exact formed_raw _
  | endless _ hbody => exact formed_whileLoop (hB _ _ _ _ _ _ hbody)
  | tested _ _ _ _ _ _ _ hbody => exact formed_whileLoop (formed_arm hB hbody)

theorem formed_iterated (hB : Forms p B) {body exit : Nat} {construct : Construct}
    (h : Iterated p B id body exit V construct V') : Formed p loop construct.1 := by
  cases h with
  | noAdvance => exact formed_raw _
  | notLifted => exact formed_raw _
  | turns _ _ _ _ _ _ hbody => exact formed_forLoop (formed_arm hB hbody)

theorem formed_made (hB : Forms p B) {construct : Construct} (h : Made p B id r V construct V') :
    Formed p r.loop construct.1 := by
  cases h with
  | loop _ _ h => exact formed_looped hB h
  | iteration _ _ h => exact formed_iterated hB h
  | strayAdvance => exact formed_raw _
  | plain _ h =>
    cases h with
    | notLifted => exact formed_raw _
    | conditional _ _ _ h => exact formed_conditional hB h
    | ret => exact (formed_block _).cons (formed_ret _ _)
    | straight => exact formed_block _

theorem forms_onwards (hB : Forms p B) : Forms p (Onwards p B) := by
  intro entering start r V nodes V' h
  cases h with
  | ends h =>
    obtain ⟨-, rfl⟩ | ⟨-, n, hn, rfl⟩ := ends_of_onward h
    · exact formed_nil
    · exact formed_exit? hn
  | jumps => exact formed_raw _
  | stops _ hmade => exact formed_made hB hmade
  | goesOn _ hmade hrest => exact (formed_made hB hmade).append (hB _ _ _ _ _ _ hrest)

/-- Every body, by induction on its fuel. -/
theorem forms_derived (fuel : Nat) : Forms p (Derived p fuel) := by
  induction fuel with
  | zero => exact fun _ _ _ _ _ _ h => h.elim
  | succ fuel ih => exact forms_onwards ih

/-- **The nodes that the walk builds**, with those of the blocks that it does not reach, may stand in
a region that is in no loop. -/
theorem formed_walked (h : Walked p nodes V) : Formed p none (nodes ++ leftoverNodes p V) := by
  refine (forms_derived _ _ _ _ _ _ _ h).append ?_
  exact leftoverNodes_induction V formed_nil fun id reason ns _ _ ih => (formed_raw _).cons ih

end Structuring

namespace Structured

open Structuring

/-- A tree that is well formed: steps out of loops are inside loops, and matches are those that the
dialect and the options allow. -/
structure WellFormed (d : Dialect) (options : StructureOptions) (body : List Node) : Prop where
  steps : Enclosed body
  chains : Each (Suits d options) body

variable {d : Dialect} {options : StructureOptions} {is : List Instruction} {length : Option Nat}

/-- Every tree is well formed. -/
theorem wellFormed_of_ofInstructions {s : Structured}
    (h : (ofInstructions d options is length).value = .ok s) : WellFormed d options s.body := by
  unfold ofInstructions at h
  split at h
  · cases h
    exact ⟨Node.enclosed_nil, Node.each_nil⟩
  split at h
  · cases h
  rename_i f hbuild
  unfold ofPlan at h
  split at h
  · rename_i nodes w hrun
    cases h
    obtain ⟨walked, V, hwalked, rfl⟩ :=
      tree_of_function (Flow.analysed_of_build hbuild) (holds_start _) hrun
    have hformed := formed_walked hwalked
    exact ⟨hformed.enclosed rfl, hformed.suits⟩
  · cases h

/-- **Every tree of a registered dialect is well formed.** Structuring a function, however far it was
decoded, does not fail because a condition, an iterable or the slots of an iteration are missing. Its
tree is well formed, and what its nodes ask for, iterate over and compare are values of its blocks. -/
theorem wellFormed_of_function (hd : d.Registered) {payload : List UInt8} {bounds : Bounds}
    {f : Function} (hf : f ∈ (Script.decode d payload bounds).functions)
    (options : StructureOptions) (length : Option Nat) :
    (∀ b, (ofInstructions d options f.instructions length).value ≠ .error (.noValue b) ∧
        (ofInstructions d options f.instructions length).value ≠ .error (.noLocals b)) ∧
      ∀ s, (ofInstructions d options f.instructions length).value = .ok s →
        WellFormed d options s.body ∧
          (s.body = [] ∨ ∃ flow, Flow.build f.instructions length = .ok flow ∧
            Each (Drawn ⟨d, flow, options⟩) s.body) := by
  refine ⟨fun b => ⟨fun herror => ?_, fun herror => ?_⟩, fun s hs => ?_⟩
  · cases reported_of_error hd.regular hf herror
  · cases reported_of_error hd.regular hf herror
  · exact ⟨wellFormed_of_ofInstructions hs, drawn_of_ofInstructions hs⟩

/-- The code of a function of the first dialect with matches: a loop with a match of three cases, a
step out of it and a step to its next turn. -/
def matchInLoop : List UInt8 :=
  [1, 0, 0, 0, 0, 0, 0, 0, 0, 0, 0, 4, 0, 2, 0, 0, 3, 0, 2, 0, 0, 0, 0, 0, 0, 0, 0, 2, 1, 0, 0, 0, 0,
    0, 0, 0, 2, 2, 0, 0, 0, 0, 0, 0, 0, 98, 0, 0, 0, 2, 0, 0, 43, 94, 0, 0, 0, 2, 1, 0, 1, 0, 0, 12,
    43, 26, 0, 0, 0, 50, 41, 62, 0, 0, 0, 2, 1, 0, 1, 1, 0, 12, 43, 44, 0, 0, 0, 50, 41, 62, 0, 0,
    0, 2, 1, 0, 1, 2, 0, 12, 43, 62, 0, 0, 0, 50, 41, 62, 0, 0, 0, 2, 2, 0, 43, 75, 0, 0, 0, 41, 94,
    0, 0, 0, 2, 3, 0, 43, 88, 0, 0, 0, 41, 0, 0, 0, 0, 50, 41, 0, 0, 0, 0, 1, 0, 0, 47, 0, 0]

/-- Whether a node is a match. -/
def isMatch : Node → Bool
  | .matching .. => true
  | _ => false

/-- Whether a node is a step out of a loop. -/
def isExit : Node → Bool
  | .leaveLoop => true
  | _ => false

theorem eq_leaveLoop_of_isExit {n : Node} (h : isExit n = true) : n = .leaveLoop := by
  cases n <;> first | rfl | cases h

/-- Its tree has a match, and both steps are in the body of its loop. -/
theorem wellFormed_of_function_matchInLoop :
    ∃ f ∈ (Script.decode Registry.firstMatching matchInLoop).functions, ∃ s,
      (ofInstructions Registry.firstMatching {} f.instructions (some f.codeLength)).value = .ok s ∧
        (preorderAll s.body).any isMatch = true ∧ Node.Inside (boundAll s.body) .leaveLoop ∧
        Node.Inside (boundAll s.body) .nextTurn ∧ WellFormed Registry.firstMatching {} s.body ∧
        (s.body = [] ∨ ∃ flow, Flow.build f.instructions (some f.codeLength) = .ok flow ∧
          Each (Drawn ⟨Registry.firstMatching, flow, {}⟩) s.body) := by
  have hfound : ((Script.decode Registry.firstMatching matchInLoop).functions.any fun f =>
      (ofInstructions Registry.firstMatching {} f.instructions
        (some f.codeLength)).value.toOption.any fun s =>
          (preorderAll s.body).any isMatch && (preorderAll s.body).any isExit &&
            (preorderAll s.body).any (·.isNextTurn)) = true := by
    decide +kernel
  obtain ⟨f, hf, hfound⟩ := List.any_eq_true.mp hfound
  simp only [Bool.and_eq_true, Option.any_eq_true] at hfound
  obtain ⟨s, hs, ⟨hmatch, hexit⟩, hturn⟩ := hfound
  obtain ⟨n, hn, hexit⟩ := List.any_eq_true.mp hexit
  obtain ⟨m, hm, hturn⟩ := List.any_eq_true.mp hturn
  obtain rfl := eq_leaveLoop_of_isExit hexit
  obtain rfl := Node.eq_nextTurn_of_isNextTurn hturn
  have hs := Outcome.toOption_eq_some.mp hs
  have hd := Dialect.registered_of_mem Registry.firstMatching_mem
  obtain ⟨hwell, hdrawn⟩ := (wellFormed_of_function hd hf {} (some f.codeLength)).2 s hs
  exact ⟨f, hf, s, hs, hmatch, hwell.steps.inside hn (.inl rfl), hwell.steps.inside hm (.inr rfl),
    hwell, hdrawn⟩

end Structured

end Unscript
