import Unscript.Proofs.Registry.Concrete
import Unscript.Proofs.Structuring.Walked
import Unscript.Proofs.Tree.Bound
import Unscript.Script.Decode
import Unscript.Structuring.Structured

/-!
# Next turns of iterations

The body of an iteration stops at the latch, which advances the iterator: code that leads to the
latch falls out of the body. It takes a step to the next turn only inside a conditional whose arms do
not meet at the latch, or where such a step was made from an arm without statements.

* `Structuring.Turns`: the conditionals of an iteration with a step to the next turn.

Results:
* `Structuring.explained_derived`: a body that stops at the latch has no other step to the next turn.
* `Structured.nextTurn_mem_iff`: which iterations hold a step to their next turn.
-/

namespace Unscript

open Node (Each boundAll preorderAll)

/-- The block of a conditional or a match. -/
def Node.testBlock? : Node → Option Nat
  | .ifElse id _ _ _ => id
  | .matching id _ _ _ _ => id
  | _ => none

namespace Structuring

/-- A conditional of an iteration that holds a step to the next turn. -/
inductive Turns (f : Flow) (latch : Nat) : Node → Prop
  /-- The arms meet at the latch. One of them has no statements and goes on with the next turn, so
  that the other can follow the conditional. -/
  | early {id : Nat} {c : Expr} {blank : List Node} (hjoin : f.join? id = some latch)
    (hne : blank ≠ []) (hblank : Node.isEmptyBody blank = true) :
    Turns f latch (.ifElse (some id) c (blank ++ [.nextTurn]) [])
  /-- The arms do not meet at the latch. -/
  | apart {n : Node} {id : Nat} (hid : n.testBlock? = some id) (hjoin : f.join? id ≠ some latch)
    (hturn : .nextTurn ∈ n.bound) : Turns f latch n

/-- A body with a step to the next turn has a conditional that holds one. -/
def Explained (f : Flow) (latch : Nat) (nodes : List Node) : Prop :=
  .nextTurn ∈ boundAll nodes → ∃ n ∈ boundAll nodes, Turns f latch n

section Explained

variable {f : Flow} {latch id : Nat} {a b : List Node} {n : Node}

theorem explained_nil : Explained f latch [] :=
  fun h => absurd h List.not_mem_nil

theorem Explained.append (ha : Explained f latch a) (hb : Explained f latch b) :
    Explained f latch (a ++ b) := by
  unfold Explained
  rw [Node.boundAll_append]
  intro h
  rcases List.mem_append.mp h with h | h
  · obtain ⟨n, hn, hturns⟩ := ha h
    exact ⟨n, List.mem_append_left _ hn, hturns⟩
  · obtain ⟨n, hn, hturns⟩ := hb h
    exact ⟨n, List.mem_append_right _ hn, hturns⟩

theorem Explained.cons (hn : Explained f latch [n]) (hb : Explained f latch b) :
    Explained f latch (n :: b) :=
  hn.append hb

theorem explained_of_bound (hbound : boundAll [n] = [n]) (hn : .nextTurn ≠ n) :
    Explained f latch [n] := by
  intro h
  rw [hbound] at h
  exact absurd (List.mem_singleton.mp h) hn

/-- A conditional whose arms do not meet at the latch. -/
theorem explained_apart (hid : n.testBlock? = some id) (hjoin : f.join? id ≠ some latch) :
    Explained f latch [n] := by
  intro h
  rw [Node.boundAll_singleton] at h ⊢
  exact ⟨n, Node.mem_bound_self n, .apart hid hjoin h⟩

theorem Explained.ifElse {block : Option Nat} {c : Expr} (ha : Explained f latch a)
    (hb : Explained f latch b) : Explained f latch [.ifElse block c a b] := by
  have hboth := ha.append hb
  unfold Explained at hboth ⊢
  rw [Node.boundAll_append] at hboth
  rw [Node.boundAll_ifElse]
  intro h
  rcases List.mem_cons.mp h with h | h
  · cases h
  · obtain ⟨n, hn, hturns⟩ := hboth h
    exact ⟨n, List.mem_cons_of_mem _ hn, hturns⟩

theorem Explained.matching {block : Option Nat} {s : Expr} {cases : List (Expr × List Node)}
    {fallback : Option (List Node)} {tests : List BlockNode}
    (hcases : ∀ c ∈ cases, Explained f latch c.2) (hfallback : Explained f latch (fallback.getD [])) :
    Explained f latch [.matching block s cases fallback tests] := by
  unfold Explained
  rw [Node.boundAll_matching]
  intro h
  rcases List.mem_cons.mp h with h | h
  · cases h
  rcases List.mem_append.mp h with h | h
  · obtain ⟨c, hc, h⟩ := List.mem_flatMap.mp h
    obtain ⟨n, hn, hturns⟩ := hcases c hc h
    exact ⟨n, List.mem_cons_of_mem _ (List.mem_append_left _ (List.mem_flatMap.mpr ⟨c, hc, hn⟩)),
      hturns⟩
  · obtain ⟨n, hn, hturns⟩ := hfallback h
    exact ⟨n, List.mem_cons_of_mem _ (List.mem_append_right _ hn), hturns⟩

theorem Explained.stripNextTurn (h : Explained f latch a) :
    Explained f latch (Node.stripNextTurn a) := by
  intro hn
  obtain ⟨n, hn, hturns⟩ := h (Node.mem_boundAll_of_stripNextTurn hn)
  refine ⟨n, Node.mem_boundAll_stripNextTurn hn ?_, hturns⟩
  rintro rfl
  cases hturns with
  | apart hid => cases hid

end Explained

/-- An iteration has its steps to the next turn explained. Other nodes have none of their own. -/
def Clear (f : Flow) (n : Node) : Prop :=
  ∀ i v e body setup latch, n = .forLoop i v e body setup latch → Explained f latch.id body

/-- A node that is no iteration. -/
theorem clear_of_ne {f : Flow} {n : Node}
    (h : ∀ i v e body setup latch, n ≠ .forLoop i v e body setup latch) : Clear f n :=
  fun i v e body setup latch heq => absurd heq (h i v e body setup latch)

/-! ## Regions -/

variable {p : Plan} {B : Bodies} {r : Region} {id x y start stop latch join : Nat} {V V' : BlockSet}
  {a b nodes : List Node} {n : Node}

/-- A region of an iteration that stops at the latch. -/
structure StopsAt (f : Flow) (r : Region) (latch : Nat) : Prop where
  stop : r.stop = some latch
  turn : r.isNextTurn latch = true
  real : latch ≠ f.exit

theorem StopsAt.eq {f : Flow} (h : StopsAt f r latch) (hx : r.isNextTurn x = true) : x = latch := by
  have hlatch := h.turn
  unfold Region.isNextTurn at hx hlatch
  split at hx
  · rename_i frame hframe
    rw [hframe] at hlatch
    exact (eq_of_beq hx).trans (eq_of_beq hlatch).symm
  · cases hx

/-- Nodes of a region whose steps to the next turn are explained: those of the iterations inside, and
where the region stops at the latch of an iteration also those of this one. -/
structure Accounted (f : Flow) (r : Region) (nodes : List Node) : Prop where
  iterations : Each (Clear f) nodes
  steps : ∀ latch, StopsAt f r latch → Explained f latch nodes

section Accounted

variable {f : Flow}

theorem accounted_nil : Accounted f r [] :=
  ⟨Node.each_nil, fun _ _ => explained_nil⟩

theorem Accounted.append (ha : Accounted f r a) (hb : Accounted f r b) : Accounted f r (a ++ b) :=
  ⟨ha.iterations.append hb.iterations, fun latch h => (ha.steps latch h).append (hb.steps latch h)⟩

theorem Accounted.cons (hn : Accounted f r [n]) (hb : Accounted f r b) : Accounted f r (n :: b) :=
  hn.append hb

/-- A node without nodes inside it that is no step to the next turn. -/
theorem accounted_lone (hbound : boundAll [n] = [n]) (hall : preorderAll [n] = [n])
    (hfor : ∀ i v e body setup latch, n ≠ .forLoop i v e body setup latch)
    (hturn : .nextTurn ≠ n) : Accounted f r [n] :=
  ⟨Node.each_lone (clear_of_ne hfor) hall, fun _ _ => explained_of_bound hbound hturn⟩

theorem accounted_block (block : BlockNode) : Accounted f r [.block block] :=
  accounted_lone rfl rfl (fun _ _ _ _ _ _ => nofun) nofun

theorem accounted_raw (raw : RawNode) : Accounted f r [.raw raw] :=
  accounted_lone rfl rfl (fun _ _ _ _ _ _ => nofun) nofun

theorem accounted_ret (value : Option Expr) (implicit : Bool) :
    Accounted f r [.ret value implicit] :=
  accounted_lone rfl rfl (fun _ _ _ _ _ _ => nofun) nofun

theorem each_clear_nextTurn : Each (Clear f) [.nextTurn] :=
  Node.each_lone (clear_of_ne fun _ _ _ _ _ _ => nofun) rfl

theorem each_clear_ifElse {block : Option Nat} {c : Expr} (ha : Each (Clear f) a)
    (hb : Each (Clear f) b) : Each (Clear f) [.ifElse block c a b] :=
  .ifElse (clear_of_ne fun _ _ _ _ _ _ => nofun) ha hb

/-- A step out of a region is no step to the latch where the region stops. -/
theorem accounted_exit? (hstop : r.stop ≠ some x) (h : r.exit? f x = some n) :
    Accounted f r [n] := by
  unfold Region.exit? at h
  split at h
  · rename_i hturn
    cases h
    refine ⟨each_clear_nextTurn, fun latch hlatch => ?_⟩
    rw [hlatch.eq hturn] at hstop
    exact absurd hlatch.stop hstop
  split at h
  · cases h
    exact accounted_lone rfl rfl (fun _ _ _ _ _ _ => nofun) nofun
  split at h
  · cases h
    exact accounted_ret none true
  · cases h

theorem accounted_armExit? (h : r.armExit? f x = some n) : Accounted f r [n] := by
  unfold Region.armExit? at h
  split at h
  · cases h
  · rename_i hstop
    exact accounted_exit? hstop h

/-- A region that stops elsewhere stops at the latch only when it is the one of the other. -/
theorem StopsAt.withStop (h : StopsAt f r latch) (hjoin : join = latch) :
    StopsAt f { r with stop := some join } latch :=
  ⟨congrArg some hjoin, h.turn, h.real⟩

/-! ## Conditionals -/

/-- A conditional whose arms meet. -/
theorem accounted_ifElse {c : Expr} (hjoin : f.join? id = some join)
    (ha : Accounted f { r with stop := some join } a)
    (hb : Accounted f { r with stop := some join } b) :
    Accounted f r [.ifElse (some id) c a b] := by
  refine ⟨each_clear_ifElse ha.iterations hb.iterations, fun latch h => ?_⟩
  by_cases hlatch : join = latch
  · exact (ha.steps latch (h.withStop hlatch)).ifElse (hb.steps latch (h.withStop hlatch))
  · refine explained_apart rfl fun hother => hlatch ?_
    rw [hjoin] at hother
    exact Option.some.inj hother

/-- A conditional whose arms do not meet inside the region. -/
theorem accounted_outside {c : Expr} (houtside : MeetsOutside p r id)
    (hb : Accounted p.flow { r with stop := none } b) :
    Accounted p.flow r [.ifElse (some id) c b []] := by
  refine ⟨each_clear_ifElse hb.iterations Node.each_nil,
    fun latch h => explained_apart rfl fun hjoin => ?_⟩
  rcases houtside latch hjoin with hexit | hinside
  · exact h.real hexit
  · have hholds : r.holds p.flow latch = true := by
      unfold Region.holds
      rw [if_pos h.stop]
    unfold Region.joinsInside at hinside
    rw [hholds, h.stop] at hinside
    simp at hinside

/-- An arm without statements that goes on with the next turn, before the other arm. -/
theorem accounted_early {c : Expr} (hjoin : f.join? id = some join)
    (hturn : r.isNextTurn join = true) (ha : Accounted f { r with stop := some join } a)
    (hb : Accounted f { r with stop := some join } b) (hne : a ≠ [])
    (hblank : Node.isEmptyBody a = true) :
    Accounted f r (.ifElse (some id) c (a ++ [.nextTurn]) [] :: b) := by
  constructor
  · exact (each_clear_ifElse (ha.iterations.append each_clear_nextTurn) Node.each_nil).cons
      hb.iterations
  · intro latch h
    have hlatch := h.eq hturn
    refine Explained.cons (fun _ => ?_) (hb.steps latch (h.withStop hlatch))
    rw [Node.boundAll_singleton]
    exact ⟨_, Node.mem_bound_self _, .early (hlatch ▸ hjoin) hne hblank⟩

/-- A conditional before the next turn, with one arm taken out of the way. -/
theorem accounted_continueEarly {c : Expr} (hjoin : f.join? id = some join)
    (ha : Accounted f { r with stop := some join } a)
    (hb : Accounted f { r with stop := some join } b) (hne : a = [] → b = []) :
    Accounted f r (Construct.continueEarly r id join (.ifElse (some id) c a b)) := by
  have hplain := accounted_ifElse (c := c) hjoin ha hb
  unfold Construct.continueEarly
  dsimp only
  split
  · exact hplain
  rename_i hturn
  have hturn : r.isNextTurn join = true := by simpa using hturn
  split
  · rename_i hcond
    simp only [Bool.and_eq_true, Bool.not_eq_true', List.isEmpty_eq_false_iff] at hcond
    exact accounted_early hjoin hturn ha hb (fun h => hcond.1.2 (hne h)) hcond.1.1
  split
  · rename_i hcond
    simp only [Bool.and_eq_true, Bool.not_eq_true', List.isEmpty_eq_false_iff] at hcond
    exact accounted_early hjoin hturn hb ha hcond.1.2 hcond.1.1
  · exact hplain

theorem accounted_ifElseOf {c : Expr} {P : Node → Prop}
    (h : ∀ c a b, Accounted f { r with stop := some join } a →
      Accounted f { r with stop := some join } b → (a = [] → b = []) → P (.ifElse (some id) c a b))
    (ha : Accounted f { r with stop := some join } a)
    (hb : Accounted f { r with stop := some join } b) : P (ifElseOf id c a b) := by
  unfold ifElseOf
  split
  · exact h _ _ _ hb accounted_nil fun _ => rfl
  · rename_i hempty
    refine h _ _ _ ha hb fun hnil => ?_
    simpa [hnil] using hempty

end Accounted

/-! ## Bodies -/

/-- Bodies whose steps to the next turn are explained. -/
def Accounts (p : Plan) (B : Bodies) : Prop :=
  ∀ entering start r V nodes V', B entering start r V nodes V' → Accounted p.flow r nodes

theorem accounted_arm (hB : Accounts p B) (h : Arm B r start stop V nodes V') :
    Accounted p.flow r nodes := by
  cases h with
  | empty => exact accounted_nil
  | body _ hbody => exact hB _ _ _ _ _ _ hbody

theorem accounted_arms (hB : Accounts p B) {cases : List (Expr × Nat)}
    {bodies : List (Expr × List Node)} (h : Arms B r stop cases V bodies V') :
    ∀ c ∈ bodies, Accounted p.flow r c.2 := by
  induction h with
  | nil V => exact fun _ hc => absurd hc List.not_mem_nil
  | cons harm _ ih => exact List.forall_mem_cons.mpr ⟨accounted_arm hB harm, ih⟩

theorem accounted_fallback (hB : Accounts p B) {fallback : Option (List Node)}
    (h : Fallback B r start stop V fallback V') : Accounted p.flow r (fallback.getD []) := by
  cases h with
  | absent => exact accounted_nil
  | present _ hbody => exact hB _ _ _ _ _ _ hbody

/-- A match. Its arms meet, as those of a conditional do. -/
theorem accounted_matching {f : Flow} {s : Expr} {bodies : List (Expr × List Node)}
    {fallback : Option (List Node)} {tests : List BlockNode} (hjoin : f.join? id = some join)
    (hbodies : ∀ c ∈ bodies, Accounted f { r with stop := some join } c.2)
    (hfallback : Accounted f { r with stop := some join } (fallback.getD [])) :
    Accounted f r [.matching (some id) s bodies fallback tests] := by
  refine ⟨.matching (clear_of_ne fun _ _ _ _ _ _ => nofun) (fun c hc => (hbodies c hc).iterations)
    hfallback.iterations, ?_⟩
  intro latch h
  by_cases hlatch : join = latch
  · have hstop := h.withStop hlatch
    exact .matching (fun c hc => (hbodies c hc).steps latch hstop) (hfallback.steps latch hstop)
  · refine explained_apart rfl fun hother => hlatch ?_
    rw [hjoin] at hother
    exact Option.some.inj hother

theorem accounted_conditional (hB : Accounts p B) {block : BlockNode} {c : Expr}
    {construct : Construct} (h : Conditional p B id (.block block) c x y r V construct V') :
    Accounted p.flow r construct.1 := by
  have hstep {c : Expr} {a b : List Node} (ha : Accounted p.flow r a) (hb : Accounted p.flow r b) :
      Accounted p.flow r [.block block, .ifElse (some id) c a b] :=
    (accounted_block block).cons
      ⟨each_clear_ifElse ha.iterations hb.iterations,
        fun latch h => (ha.steps latch h).ifElse (hb.steps latch h)⟩
  cases h with
  | steps ht he => exact hstep (accounted_armExit? ht) (accounted_armExit? he)
  | falseSteps ht he => exact hstep (accounted_armExit? he) accounted_nil
  | trueSteps ht he => exact hstep (accounted_armExit? ht) accounted_nil
  | chained ht he hjoin hholds hvalue hlinks harms hfallback =>
    exact (accounted_block block).cons
      (accounted_matching hjoin (accounted_arms hB harms) (accounted_fallback hB hfallback))
  | meets ht he hjoin hexit hinside htrue hfalse =>
    refine (accounted_block block).cons ?_
    exact accounted_ifElseOf (P := fun n =>
      Accounted p.flow r (Construct.continueEarly r id _ n))
      (fun c a b ha hb hne => accounted_continueEarly hjoin ha hb hne)
      (accounted_arm hB htrue) (accounted_arm hB hfalse)
  | falseDeparts ht he houtside hleaves hbody =>
    exact (accounted_block block).cons (accounted_outside houtside (hB _ _ _ _ _ _ hbody))
  | trueDeparts ht he houtside hleaves hbody =>
    exact (accounted_block block).cons (accounted_outside houtside (hB _ _ _ _ _ _ hbody))
  | meetsAtEnd ht he hjoin htrue hfalse =>
    refine (accounted_block block).cons ?_
    exact accounted_ifElseOf (P := fun n => Accounted p.flow r [n])
      (fun c a b ha hb _ => accounted_ifElse hjoin ha hb)
      (accounted_arm hB htrue) (accounted_arm hB hfalse)
  | noJoin => exact accounted_raw _

/-- The steps to the next turn inside a loop are its own. -/
theorem accounted_whileLoop {f : Flow} {c : Expr} {header : Option BlockNode}
    (h : Each (Clear f) a) : Accounted f r [.whileLoop c (Node.stripNextTurn a) header] :=
  ⟨.whileLoop (clear_of_ne fun _ _ _ _ _ _ => nofun) h.stripNextTurn,
    fun _ _ => explained_of_bound rfl nofun⟩

theorem accounted_looped (hB : Accounts p B) {l : Loop} {construct : Construct}
    (h : Looped p B l V construct V') : Accounted p.flow r construct.1 := by
  cases h with
  | irreducible => exact accounted_raw _
  | endless _ hbody => exact accounted_whileLoop (hB _ _ _ _ _ _ hbody).iterations
  | tested _ _ _ _ _ _ _ hbody => exact accounted_whileLoop (accounted_arm hB hbody).iterations

/-- The body of an iteration stops at the latch. -/
theorem accounted_iterated (hf : p.flow.Analysed) (hB : Accounts p B) {body exit : Nat}
    {construct : Construct} (h : Iterated p B id body exit V construct V') :
    Accounted p.flow r construct.1 := by
  cases h with
  | noAdvance => exact accounted_raw _
  | notLifted => exact accounted_raw _
  | @turns l latch iterator element begun advanced iterable nodes _ hadvance _ _ _ _ _ hbody =>
    have hbody := accounted_arm hB hbody
    have hreal : latch ≠ p.flow.exit := by
      rintro rfl
      have hexit : p.flow.ending p.flow.exit = .exit := hf.proper.ending_exit
      rw [(advances_of_advance? hadvance).ending] at hexit
      cases hexit
    have hstops : StopsAt p.flow (iterationRegion p l body exit latch) latch :=
      ⟨rfl, beq_self_eq_true latch, hreal⟩
    refine ⟨.forLoop ?_ hbody.iterations.stripNextTurn, ?_⟩
    · rintro _ _ _ _ _ _ ⟨⟩
      exact (hbody.steps latch hstops).stripNextTurn
    · exact fun _ _ => explained_of_bound rfl nofun

theorem accounted_made (hf : p.flow.Analysed) (hB : Accounts p B) {construct : Construct}
    (h : Made p B id r V construct V') : Accounted p.flow r construct.1 := by
  cases h with
  | loop _ _ h => exact accounted_looped hB h
  | iteration _ _ h => exact accounted_iterated hf hB h
  | strayAdvance => exact accounted_raw _
  | plain _ h =>
    cases h with
    | notLifted => exact accounted_raw _
    | conditional _ _ _ h => exact accounted_conditional hB h
    | ret => exact (accounted_block _).cons (accounted_ret _ _)
    | straight => exact accounted_block _

theorem accounts_onwards (hf : p.flow.Analysed) (hB : Accounts p B) : Accounts p (Onwards p B) := by
  intro entering start r V nodes V' h
  cases h with
  | ends h =>
    obtain ⟨-, rfl⟩ | ⟨hstop, n, hn, rfl⟩ := ends_of_onward h
    · exact accounted_nil
    · exact accounted_exit? hstop hn
  | jumps => exact accounted_raw _
  | stops _ hmade => exact accounted_made hf hB hmade
  | goesOn _ hmade hrest => exact (accounted_made hf hB hmade).append (hB _ _ _ _ _ _ hrest)

/-- **Every body** has its steps to the next turn explained. -/
theorem accounts_derived (hf : p.flow.Analysed) (fuel : Nat) : Accounts p (Derived p fuel) := by
  induction fuel with
  | zero => exact fun _ _ _ _ _ _ h => h.elim
  | succ fuel ih => exact accounts_onwards hf ih

/-! ## Functions -/

theorem each_clear_leftoverNodes (V : BlockSet) : Each (Clear p.flow) (leftoverNodes p V) :=
  leftoverNodes_induction V Node.each_nil fun _ _ _ _ _ ih =>
    (accounted_raw (r := {}) _).iterations.cons ih

/-- A conditional of the second kind holds a step to the next turn, and so does one of the first. -/
theorem Turns.mem_bound {f : Flow} (h : Turns f latch n) : .nextTurn ∈ n.bound := by
  cases h with
  | @early id c blank =>
    rw [← Node.boundAll_singleton, Node.boundAll_ifElse, Node.boundAll_append]
    refine List.mem_cons_of_mem _ (List.mem_append_left _ (List.mem_append_right _ ?_))
    exact List.mem_singleton_self _
  | apart _ _ hturn => exact hturn

end Structuring

namespace Structured

open Structuring

variable {d : Dialect} {options : StructureOptions} {is : List Instruction} {length : Option Nat}

/-- **When an iteration goes on early.** The body of an iteration holds a step to its next turn
exactly when one of its conditionals does not meet at the latch and holds such a step, or does meet
there and had an arm without statements end in one. -/
theorem nextTurn_mem_iff {s : Structured} (h : (ofInstructions d options is length).value = .ok s)
    {i v : Nat} {e : Expr} {body : List Node} {setup latch : BlockNode}
    (hfor : .forLoop i v e body setup latch ∈ preorderAll s.body) :
    ∃ f, Flow.build is length = .ok f ∧
      (.nextTurn ∈ boundAll body ↔ ∃ n ∈ boundAll body, Turns f latch.id n) := by
  unfold ofInstructions at h
  split at h
  · cases h
    exact absurd hfor List.not_mem_nil
  split at h
  · cases h
  rename_i f hbuild
  unfold ofPlan at h
  split at h
  · rename_i nodes w hrun
    cases h
    have hf := Flow.analysed_of_build hbuild
    obtain ⟨walked, V, hwalked, rfl⟩ := tree_of_function hf (holds_start _) hrun
    have hwalked := (accounts_derived hf _ _ _ _ _ _ _ hwalked).iterations
    have hall := hwalked.append (each_clear_leftoverNodes (p := ⟨d, f, options⟩) V)
    refine ⟨f, hbuild, hall _ hfor i v e body setup latch rfl, ?_⟩
    rintro ⟨n, hn, hturns⟩
    exact Node.boundAll_trans hturns.mem_bound hn
  · cases h

/-- The code of a function of the oldest dialect: an iteration that ends with an assignment, before
which one of two arms does nothing. -/
def unevenIteration : List UInt8 :=
  [1, 0, 0, 0, 0, 0, 0, 0, 0, 0, 0, 4, 4, 0, 0, 0, 0, 28, 0, 0, 0, 2, 0, 42, 1, 2, 28, 0, 2, 3, 41,
    15, 0, 39, 19, 0, 2, 2, 3, 3, 2, 3, 3, 0, 43, 1, 2, 7, 0]

/-- Whether a node is an iteration with statements in its latch and a step to its next turn. -/
def skipsStatements : Node → Bool
  | .forLoop _ _ _ body _ latch => !latch.statements.isEmpty && (boundAll body).any (·.isNextTurn)
  | _ => false

theorem exists_of_skipsStatements {n : Node} (h : skipsStatements n = true) :
    ∃ i v e body setup latch, n = .forLoop i v e body setup latch ∧ latch.statements ≠ [] ∧
      .nextTurn ∈ boundAll body := by
  unfold skipsStatements at h
  split at h
  · rename_i i v e body setup latch
    simp only [Bool.and_eq_true, Bool.not_eq_true', List.isEmpty_eq_false_iff,
      List.any_eq_true] at h
    obtain ⟨hne, n, hn, hturn⟩ := h
    exact ⟨i, v, e, body, setup, latch, rfl, hne, Node.eq_nextTurn_of_isNextTurn hturn ▸ hn⟩
  · cases h

theorem unevenIteration_skips : ∃ f ∈ (Script.decode Registry.oldest unevenIteration).functions,
    f.complete ∧ (∀ i ∈ f.instructions, Registry.oldest.isLegal i.mnemonic) ∧
      ∃ s, (ofInstructions Registry.oldest {} f.instructions (some f.codeLength)).value = .ok s ∧
        ∃ i v e body setup latch, .forLoop i v e body setup latch ∈ preorderAll s.body ∧
          latch.statements ≠ [] ∧ .nextTurn ∈ boundAll body := by
  have hfound : ((Script.decode Registry.oldest unevenIteration).functions.any fun f =>
      f.complete && f.instructions.all (fun i => Registry.oldest.isLegal i.mnemonic) &&
        (ofInstructions Registry.oldest {} f.instructions
          (some f.codeLength)).value.toOption.any fun s =>
            (preorderAll s.body).any skipsStatements) = true := by
    decide +kernel
  obtain ⟨f, hf, hfound⟩ := List.any_eq_true.mp hfound
  simp only [Bool.and_eq_true, List.all_eq_true] at hfound
  obtain ⟨⟨hcomplete, hlegal⟩, hskips⟩ := hfound
  refine ⟨f, hf, hcomplete, hlegal, ?_⟩
  cases hvalue : (ofInstructions Registry.oldest {} f.instructions (some f.codeLength)).value with
  | error e =>
    rw [hvalue] at hskips
    cases hskips
  | ok s =>
    rw [hvalue] at hskips
    obtain ⟨n, hn, hskips⟩ := List.any_eq_true.mp hskips
    obtain ⟨i, v, e, body, setup, latch, rfl, hne, hturn⟩ := exists_of_skipsStatements hskips
    exact ⟨s, rfl, i, v, e, body, setup, latch, hn, hne, hturn⟩

/-- An iteration with statements before its next element, and a step to its next turn. -/
theorem nextTurn_mem_iff_unevenIteration :
    ∃ f ∈ (Script.decode Registry.oldest unevenIteration).functions,
      ∃ s, (ofInstructions Registry.oldest {} f.instructions (some f.codeLength)).value = .ok s ∧
        ∃ i v e body setup latch, .forLoop i v e body setup latch ∈ preorderAll s.body ∧
          .nextTurn ∈ boundAll body ∧
          ∃ flow, Flow.build f.instructions (some f.codeLength) = .ok flow ∧
            (.nextTurn ∈ boundAll body ↔ ∃ n ∈ boundAll body, Turns flow latch.id n) := by
  obtain ⟨f, hf, -, -, s, hs, i, v, e, body, setup, latch, hfor, -, hturn⟩ := unevenIteration_skips
  exact ⟨f, hf, s, hs, i, v, e, body, setup, latch, hfor, hturn, nextTurn_mem_iff hs hfor⟩

/-- Not every iteration with statements before its next element is free of steps to its next turn. -/
theorem not_forall_nextTurn_not_mem :
    ¬ ∀ d ∈ Registry.standard.dialects, ∀ payload, ∀ f ∈ (Script.decode d payload).functions,
      f.complete → (∀ i ∈ f.instructions, d.isLegal i.mnemonic) →
      ∀ s, (ofInstructions d {} f.instructions (some f.codeLength)).value = .ok s →
      ∀ i v e body setup latch, .forLoop i v e body setup latch ∈ preorderAll s.body →
        latch.statements ≠ [] → .nextTurn ∉ boundAll body := by
  intro h
  obtain ⟨f, hf, hcomplete, hlegal, s, hs, i, v, e, body, setup, latch, hfor, hne, hturn⟩ :=
    unevenIteration_skips
  exact h Registry.oldest Registry.oldest_mem unevenIteration f hf hcomplete hlegal s hs i v e body
    setup latch hfor hne hturn

end Structured

end Unscript
