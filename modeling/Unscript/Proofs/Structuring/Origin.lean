import Unscript.Proofs.Structuring.Walked
import Unscript.Proofs.Flow.Analysis
import Unscript.Proofs.Tree.Node
import Unscript.Structuring.Structured

/-!
# Where the code of a tree is from

The statements of a tree are those of lifted blocks, and its expressions are the values that blocks
leave for their endings, negated or taken apart into what is compared and with what. Its raw nodes
hold blocks as they are, or are bare jumps.

* `Plan.Lifts`, `Plan.Yields`, `Plan.Asks`: statements, values and conditions of blocks.
* `Plan.Keeps`: code without structure.
* `Structuring.Drawn`: a node that is made of them.

Results:
* `Structuring.drawn_walked`: all nodes of a tree are.
* `Structured.keeps_of_ofInstructions`: raw nodes hold code of the graph.
-/

namespace Unscript

open Node (Each)

namespace Plan

variable (p : Plan)

/-- A block with the statements that it is lifted to. -/
def Lifts (b : BlockNode) : Prop :=
  ∃ l, p.lift b.id = .ok l ∧ b.statements = l.statements

/-- A value that a block leaves for its ending. -/
def Yields (e : Expr) : Prop :=
  ∃ id l, p.lift id = .ok l ∧ l.value = some e

/-- A condition: what a block leaves for its ending, perhaps negated. -/
inductive Asks : Expr → Prop
  | value {e : Expr} (h : p.Yields e) : Asks e
  | negate {e : Expr} (h : Asks e) : Asks e.negate

/-- Code without structure: a block as it is, or a bare jump. The reason is one of the walk, and a
block that is called unreachable is. -/
inductive Keeps : RawNode → Prop
  | block {id : Nat} {reason : RawReason} (hreason : ∀ text, reason ≠ .other text)
    (hreach : reason = .unreachable → id ∉ p.flow.reachable) : Keeps (p.rawOf id reason)
  | jump {target : Nat} {reason : RawReason} (hreason : ∀ text, reason ≠ .other text)
    (hreach : reason ≠ .unreachable) : Keeps { reason, gotos := [target] }

end Plan

namespace Structuring

/-- A node that is made of statements and values of blocks. A match has cases, and all of them
compare its subject. The blocks of tests only test. -/
def Drawn (p : Plan) : Node → Prop
  | .block b => p.Lifts b
  | .sequence _ => False
  | .ifElse _ condition _ _ => p.Asks condition
  | .whileLoop condition _ header =>
    (condition = .bool true ∨ p.Asks condition) ∧ ∀ b ∈ header, b.statements = []
  | .forLoop _ _ iterable _ setup latch => p.Yields iterable ∧ p.Lifts setup ∧ p.Lifts latch
  | .matching _ subject cases _ tests =>
    cases ≠ [] ∧ (∀ c ∈ cases, ∃ e, p.Yields e ∧ e.comparison? = some (subject, c.1)) ∧
      ∀ b ∈ tests, b.statements = []
  | .ret (some value) _ => p.Yields value
  | .raw r => p.Keeps r
  | .ret none _ | .leaveLoop | .nextTurn => True

variable {p : Plan} {B : Bodies} {r : Region} {id x y start stop : Nat} {V V' : BlockSet} {n : Node}
  {nodes a b : List Node}

theorem lifts_blockNode {l : Lifted} (h : p.lift id = .ok l) :
    p.Lifts (p.blockNode id l.statements) := by
  refine ⟨l, ?_, rfl⟩
  exact h

theorem drawn_rawOf {reason : RawReason} (hreason : ∀ text, reason ≠ .other text)
    (hreach : reason = .unreachable → id ∉ p.flow.reachable) :
    Each (Drawn p) [.raw (p.rawOf id reason)] :=
  Node.each_lone (n := .raw (p.rawOf id reason)) (.block hreason hreach) rfl

theorem drawn_block {block : BlockNode} (h : p.Lifts block) : Each (Drawn p) [.block block] :=
  Node.each_lone h rfl

theorem drawn_nextTurn : Each (Drawn p) [.nextTurn] :=
  Node.each_lone trivial rfl

theorem drawn_ret {l : Lifted} (hlift : p.lift id = .ok l) :
    Each (Drawn p) [.ret l.value false] := by
  refine Node.each_lone ?_ rfl
  cases hvalue : l.value with
  | none => trivial
  | some e => exact ⟨id, l, hlift, hvalue⟩

theorem drawn_ifElse {block : Option Nat} {c : Expr} (hc : p.Asks c) (ha : Each (Drawn p) a)
    (hb : Each (Drawn p) b) : Each (Drawn p) [.ifElse block c a b] :=
  .ifElse hc ha hb

theorem drawn_exit? (h : r.exit? p.flow x = some n) : Each (Drawn p) [n] := by
  unfold Region.exit? at h
  split at h
  · cases h
    exact drawn_nextTurn
  split at h
  · cases h
    exact Node.each_lone trivial rfl
  split at h
  · cases h
    exact Node.each_lone trivial rfl
  · cases h

theorem drawn_armExit? (h : r.armExit? p.flow x = some n) : Each (Drawn p) [n] := by
  unfold Region.armExit? at h
  split at h
  · cases h
  · exact drawn_exit? h

/-! ## Arms -/

/-- Bodies that are made of statements and values of blocks. -/
def Draws (p : Plan) (B : Bodies) : Prop :=
  ∀ entering start r V nodes V', B entering start r V nodes V' → Each (Drawn p) nodes

theorem drawn_arm (hB : Draws p B) (h : Arm B r start stop V nodes V') : Each (Drawn p) nodes := by
  cases h with
  | empty => exact Node.each_nil
  | body _ hbody => exact hB _ _ _ _ _ _ hbody

/-- The arms of a match stand behind the constants of its cases. -/
theorem Arms.patterns_eq {cases : List (Expr × Nat)} {bodies : List (Expr × List Node)}
    (h : Arms B r stop cases V bodies V') : bodies.map (·.1) = cases.map (·.1) := by
  induction h with
  | nil V => rfl
  | cons _ _ ih => rw [List.map_cons, List.map_cons, ih]

theorem drawn_arms (hB : Draws p B) {cases : List (Expr × Nat)}
    {bodies : List (Expr × List Node)} (h : Arms B r stop cases V bodies V') :
    ∀ c ∈ bodies, Each (Drawn p) c.2 := by
  induction h with
  | nil V => exact fun _ hc => absurd hc List.not_mem_nil
  | cons harm _ ih => exact List.forall_mem_cons.mpr ⟨drawn_arm hB harm, ih⟩

theorem drawn_fallback (hB : Draws p B) {fallback : Option (List Node)}
    (h : Fallback B r start stop V fallback V') : Each (Drawn p) (fallback.getD []) := by
  cases h with
  | absent => exact Node.each_nil
  | present _ hbody => exact hB _ _ _ _ _ _ hbody

/-! ## Conditionals -/

/-- The blocks of a chain compare one subject. -/
theorem Links.compares {s : Chain.Scope} {current fallback last : Nat} {cases : List (Expr × Nat)}
    {tests : List Nat} (h : Links p s V current fallback cases tests last) :
    ∀ c ∈ cases, ∃ e, p.Yields e ∧ e.comparison? = some (s.subject, c.1) := by
  induction h with
  | done => exact fun _ hc => absurd hc List.not_mem_nil
  | @link _ id _ _ _ _ l _ _ _ hlift _ _ hvalue _ _ ih =>
    obtain ⟨e, he, hcompared⟩ := Option.bind_eq_some_iff.mp hvalue
    exact List.forall_mem_cons.mpr ⟨⟨e, ⟨id, l, hlift, he⟩, hcompared⟩, ih⟩

theorem drawn_ifElseOf {c : Expr} (hc : p.Asks c) (ha : Each (Drawn p) a) (hb : Each (Drawn p) b) :
    Each (Drawn p) [ifElseOf id c a b] := by
  unfold ifElseOf
  split
  · exact drawn_ifElse hc.negate hb Node.each_nil
  · exact drawn_ifElse hc ha hb

theorem drawn_continueEarly {join : Nat} (h : Each (Drawn p) [n]) :
    Each (Drawn p) (Construct.continueEarly r id join n) := by
  unfold Construct.continueEarly
  split
  · rename_i block c whenTrue whenFalse
    have hall := h
    unfold Each at hall
    rw [Node.preorderAll_ifElse] at hall
    obtain ⟨hc, hall⟩ := List.forall_mem_cons.mp hall
    obtain ⟨htrue, hfalse⟩ := List.forall_mem_append.mp hall
    dsimp only
    split
    · exact h
    split
    · exact (drawn_ifElse hc (Each.append htrue drawn_nextTurn) Node.each_nil).cons hfalse
    split
    · exact (drawn_ifElse (.negate hc) (Each.append hfalse drawn_nextTurn) Node.each_nil).cons htrue
    · exact h
  · exact h

theorem drawn_conditional (hB : Draws p B) {block : BlockNode} (hblock : p.Lifts block) {c : Expr}
    (hc : p.Yields c) {construct : Construct}
    (h : Conditional p B id (.block block) c x y r V construct V') :
    Each (Drawn p) construct.1 := by
  have hask : p.Asks c := .value hc
  have hhead := drawn_block hblock
  cases h with
  | steps ht he => exact hhead.cons (drawn_ifElse hask (drawn_armExit? ht) (drawn_armExit? he))
  | falseSteps ht he => exact hhead.cons (drawn_ifElse hask.negate (drawn_armExit? he) Node.each_nil)
  | trueSteps ht he => exact hhead.cons (drawn_ifElse hask (drawn_armExit? ht) Node.each_nil)
  | @chained join last subject pattern cases tests bodies _ _ _ _ _ _ _ hvalue hlinks harms
      hfallback =>
    have hpatterns := harms.patterns_eq
    refine hhead.cons (.matching ⟨?_, ?_, ?_⟩ (drawn_arms hB harms) (drawn_fallback hB hfallback))
    · rintro rfl
      cases hpatterns
    · intro c' hc'
      have hmem : c'.1 ∈ ((pattern, x) :: cases).map (·.1) :=
        hpatterns ▸ List.mem_map_of_mem hc'
      rw [List.map_cons, List.mem_cons] at hmem
      rcases hmem with heq | hmem
      · exact ⟨c, hc, heq ▸ hvalue⟩
      · obtain ⟨c₀, hc₀, heq⟩ := List.mem_map.mp hmem
        exact heq ▸ hlinks.compares c₀ hc₀
    · intro b hb
      obtain ⟨id, -, rfl⟩ := List.mem_map.mp hb
      rfl
  | meets _ _ _ _ _ htrue hfalse =>
    refine hhead.cons (drawn_continueEarly ?_)
    exact drawn_ifElseOf hask (drawn_arm hB htrue) (drawn_arm hB hfalse)
  | falseDeparts _ _ _ _ hbody =>
    exact hhead.cons (drawn_ifElse hask.negate (hB _ _ _ _ _ _ hbody) Node.each_nil)
  | trueDeparts _ _ _ _ hbody =>
    exact hhead.cons (drawn_ifElse hask (hB _ _ _ _ _ _ hbody) Node.each_nil)
  | meetsAtEnd _ _ _ htrue hfalse =>
    exact hhead.cons (drawn_ifElseOf hask (drawn_arm hB htrue) (drawn_arm hB hfalse))
  | noJoin => exact drawn_rawOf nofun nofun

/-! ## Loops -/

theorem drawn_looped (hB : Draws p B) {l : Loop} {construct : Construct}
    (h : Looped p B l V construct V') : Each (Drawn p) construct.1 := by
  cases h with
  | irreducible => exact drawn_rawOf nofun nofun
  | endless _ hbody => exact .whileLoop ⟨.inl rfl, nofun⟩ (hB _ _ _ _ _ _ hbody).stripNextTurn
  | @tested lifted c _ _ _ _ _ _ _ _ _ hlift _ _ hvalue hgoes hbody =>
    have hask : p.Asks c := .value ⟨l.header, lifted, hlift, hvalue⟩
    refine .whileLoop ⟨.inr ?_, ?_⟩ (drawn_arm hB hbody).stripNextTurn
    · cases hgoes with
      | whenTrue => exact hask
      | whenFalse => exact hask.negate
    · rintro _ ⟨⟩
      rfl

theorem drawn_iterated (hB : Draws p B) {body exit : Nat} {construct : Construct}
    (h : Iterated p B id body exit V construct V') : Each (Drawn p) construct.1 := by
  cases h with
  | noAdvance => exact drawn_rawOf nofun nofun
  | notLifted => exact drawn_rawOf nofun nofun
  | turns _ _ hbegun hadvanced _ hvalue hbody =>
    exact .forLoop ⟨⟨_, _, hbegun, hvalue⟩, lifts_blockNode hbegun, lifts_blockNode hadvanced⟩
      (drawn_arm hB hbody).stripNextTurn

/-! ## Bodies -/

theorem drawn_made (hB : Draws p B) {construct : Construct} (h : Made p B id r V construct V') :
    Each (Drawn p) construct.1 := by
  cases h with
  | loop _ _ h => exact drawn_looped hB h
  | iteration _ _ h => exact drawn_iterated hB h
  | strayAdvance => exact drawn_rawOf nofun nofun
  | plain _ h =>
    cases h with
    | notLifted => exact drawn_rawOf nofun nofun
    | conditional hlift hvalue _ h =>
      exact drawn_conditional hB (lifts_blockNode hlift) ⟨_, _, hlift, hvalue⟩ h
    | ret hlift => exact (drawn_block (lifts_blockNode hlift)).cons (drawn_ret hlift)
    | straight hlift => exact drawn_block (lifts_blockNode hlift)

/-- A body goes on with a bare jump for two reasons. -/
theorem reason_of_onward {f : Flow} {reason : RawReason}
    (h : onward f r V start = .jumps reason) :
    (∀ text, reason ≠ .other text) ∧ reason ≠ .unreachable := by
  unfold onward at h
  split at h
  · cases h
  split at h
  · cases h
  split at h
  · cases h
  split at h
  · cases h
    exact ⟨nofun, nofun⟩
  split at h
  · cases h
    exact ⟨nofun, nofun⟩
  · cases h

theorem draws_onwards (hB : Draws p B) : Draws p (Onwards p B) := by
  intro entering start r V nodes V' h
  cases h with
  | ends h =>
    obtain ⟨-, rfl⟩ | ⟨-, n, hn, rfl⟩ := ends_of_onward h
    · exact Node.each_nil
    · exact drawn_exit? hn
  | jumps h =>
    obtain ⟨hreason, hreach⟩ := reason_of_onward h
    exact Node.each_lone (n := .raw { reason := _, gotos := [_] }) (.jump hreason hreach) rfl
  | stops _ hmade => exact drawn_made hB hmade
  | goesOn _ hmade hrest => exact (drawn_made hB hmade).append (hB _ _ _ _ _ _ hrest)

/-- Every body, by induction on its fuel. -/
theorem draws_derived (fuel : Nat) : Draws p (Derived p fuel) := by
  induction fuel with
  | zero => exact fun _ _ _ _ _ _ h => h.elim
  | succ fuel ih => exact draws_onwards ih

/-! ## Trees -/

/-- **All nodes of a tree** are made of statements and values of blocks. -/
theorem drawn_walked (h : Walked p nodes V) : Each (Drawn p) (nodes ++ leftoverNodes p V) := by
  refine (draws_derived _ _ _ _ _ _ _ h).append ?_
  exact leftoverNodes_induction V Node.each_nil fun id reason ns hreason hreach ih =>
    (drawn_rawOf hreason hreach).cons ih

end Structuring

namespace Structured

open Structuring

variable {d : Dialect} {options : StructureOptions} {is : List Instruction} {length : Option Nat}

/-- The tree of a function is made of statements and values of blocks of its graph. -/
theorem drawn_of_ofInstructions {s : Structured}
    (h : (ofInstructions d options is length).value = .ok s) :
    s.body = [] ∨ ∃ f, Flow.build is length = .ok f ∧ Each (Drawn ⟨d, f, options⟩) s.body := by
  unfold ofInstructions at h
  split at h
  · cases h
    exact .inl rfl
  split at h
  · cases h
  rename_i f hbuild
  unfold ofPlan at h
  split at h
  · rename_i nodes w hrun
    cases h
    obtain ⟨walked, V, hwalked, rfl⟩ :=
      tree_of_function (Flow.analysed_of_build hbuild) (holds_start _) hrun
    exact .inr ⟨f, hbuild, drawn_walked hwalked⟩
  · cases h

/-- Raw nodes hold code of the graph of their function. -/
theorem keeps_of_ofInstructions {s : Structured}
    (h : (ofInstructions d options is length).value = .ok s) {r : RawNode}
    (hr : r ∈ Node.raws s.body) :
    ∃ f, Flow.build is length = .ok f ∧ Plan.Keeps ⟨d, f, options⟩ r := by
  rcases drawn_of_ofInstructions h with hnil | ⟨f, hbuild, hdrawn⟩
  · rw [hnil] at hr
    cases hr
  · obtain ⟨n, hn, hraw⟩ := List.mem_filterMap.mp hr
    have hdrawn := hdrawn n hn
    unfold Node.raw? at hraw
    split at hraw
    · cases hraw
      exact ⟨f, hbuild, hdrawn⟩
    · cases hraw

end Structured

end Unscript
