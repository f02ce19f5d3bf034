import Unscript.Proofs.Structuring.Latches
import Unscript.Proofs.Structuring.Walked
import Unscript.Proofs.Tree.Node

/-!
# Which blocks a tree holds

Every leaf of a tree holds one block, and the walk turns every block into a leaf at most once, but
for sidestepped iterations. So the blocks held by the nodes that a part of the walk makes are those
that it visits.

* `Node.ownBlocks`: the blocks that a node itself holds.
* `Structuring.Visits`: blocks that are visited one after another.
* `Structuring.Ordered`: visited blocks among which no iteration is advanced before it is begun.
* `Structuring.Keeps`: nodes that hold the blocks that are visited.

Results:
* `Structuring.flatMap_leaves`: the leaves hold the instructions of the blocks.
* `Structuring.Keeps.append`, `Structuring.Keeps.matching`, `Structuring.Keeps.forLoop` and others:
  what nodes put together hold.
-/

namespace Unscript

open Node (Each gather)

/-- The blocks that a node itself holds. -/
def Node.ownBlocks : Node → List Nat
  | .block b => [b.id]
  | .raw r => r.block.toList
  | .whileLoop _ _ header => header.toList.map (·.id)
  | .forLoop _ _ _ _ setup latch => [setup.id, latch.id]
  | .matching _ _ _ _ tests => tests.map (·.id)
  | _ => []

namespace Structuring

/-! ## Blocks one after another -/

/-- How often a block is in a set. -/
def occurs (V : BlockSet) (x : Nat) : Nat :=
  if x ∈ V then 1 else 0

/-- Blocks that are visited one after another, each for the first time unless it is a sidestepped
iteration. -/
structure Visits (f : Flow) (V : BlockSet) (ids : List Nat) (V' : BlockSet) : Prop where
  mem : ∀ x, x ∈ V' ↔ x ∈ V ∨ x ∈ ids
  once : ∀ x, ¬ f.Sidestepped x → ids.count x + occurs V x = occurs V' x

section Visits

variable {f : Flow} {V V₁ V₂ V' : BlockSet} {a b ids : List Nat} {x : Nat}

theorem visits_nil (f : Flow) (V : BlockSet) : Visits f V [] V :=
  ⟨fun x => by simp, fun x _ => by rw [List.count_nil, Nat.zero_add]⟩

theorem Visits.append (ha : Visits f V a V₁) (hb : Visits f V₁ b V₂) : Visits f V (a ++ b) V₂ := by
  refine ⟨fun x => ?_, fun x hx => ?_⟩
  · rw [hb.mem, ha.mem, List.mem_append, or_assoc]
  · have := ha.once x hx
    have := hb.once x hx
    rw [List.count_append]
    omega

theorem Visits.perm (h : Visits f V a V') (hperm : a.Perm b) : Visits f V b V' :=
  ⟨fun x => by rw [h.mem, hperm.mem_iff], fun x hx => by rw [← hperm.count_eq, h.once x hx]⟩

theorem visits_insert (hx : x ∉ V ∨ f.Sidestepped x) : Visits f V [x] (V.insert x) := by
  refine ⟨fun y => by rw [BlockSet.mem_insert, List.mem_singleton], fun y hy => ?_⟩
  unfold occurs
  by_cases hxy : x = y
  · subst hxy
    rw [List.count_singleton_self, if_neg (hx.resolve_right hy),
      if_pos (BlockSet.mem_insert_self V x)]
  · have hmem : y ∈ V.insert x ↔ y ∈ V := by
      rw [BlockSet.mem_insert]
      exact or_iff_left (Ne.symm hxy)
    rw [List.count_singleton, if_neg (by simpa using hxy), Nat.zero_add]
    exact if_congr hmem.symm rfl rfl

/-- Different blocks that were not visited before. -/
theorem visits_of_nodup (hnodup : ids.Nodup) (hfresh : ∀ x ∈ ids, x ∉ V) :
    Visits f V ids (ids.foldl BlockSet.insert V) := by
  induction ids generalizing V with
  | nil => exact visits_nil f V
  | cons x ids ih =>
    obtain ⟨hx, hnodup⟩ := List.nodup_cons.mp hnodup
    obtain ⟨hfx, hfresh⟩ := List.forall_mem_cons.mp hfresh
    refine (visits_insert (.inl hfx)).append (ih hnodup fun y hy => ?_)
    rw [BlockSet.mem_insert]
    rintro (hold | rfl)
    · exact hfresh y hy hold
    · exact hx hy

theorem Visits.subset (h : Visits f V ids V') : ∀ x ∈ V, x ∈ V' :=
  fun x hx => (h.mem x).mpr (.inl hx)

end Visits

/-! ## Iterations that were begun -/

section Ordered

variable {p : Plan} {V V' : BlockSet} {id exit latch x : Nat} {l : Loop}

/-- Visited blocks among which no iteration is advanced before it is begun, unless it is
sidestepped. -/
def Ordered (p : Plan) (V : BlockSet) : Prop :=
  ∀ id exit l latch, Iterates p id exit l latch → latch ∈ V → id ∈ V ∨ p.flow.Sidestepped latch

theorem ordered_empty (p : Plan) : Ordered p .empty :=
  fun _ _ _ latch _ h => absurd h (BlockSet.not_mem_empty latch)

/-- Known blocks keep the order. -/
theorem Ordered.of_known (hf : p.flow.Analysed) (h : Ordered p V) (hsub : ∀ x ∈ V, x ∈ V')
    (hnew : ∀ x ∈ V', x ∈ V ∨ Known p V' x) : Ordered p V' := by
  intro id exit l latch hit hlatch
  rcases hnew latch hlatch with hold | hknown
  · exact (h id exit l latch hit hold).imp_left (hsub id)
  · by_cases hside : p.flow.Sidestepped latch
    · exact .inr hside
    · have hbody := hf.latch_mem hit.advances.loop hit.latch_mem
      exact .inl (hknown id ⟨exit, l, latch, hit, hbody, fun heq => ⟨heq, heq ▸ hside⟩⟩)

theorem Ordered.insert (hf : p.flow.Analysed) (h : Ordered p V) (hx : Known p V x) :
    Ordered p (V.insert x) := by
  have hsub := BlockSet.subset_insert V x
  refine h.of_known hf hsub fun y hy => ?_
  rcases BlockSet.mem_insert.mp hy with hy | rfl
  · exact .inl hy
  · exact .inr (hx.mono hsub)

/-- So does the latch of an iteration that was begun. -/
theorem Ordered.insert_latch (h : Ordered p V) (hit : Iterates p id exit l latch) (hid : id ∈ V) :
    Ordered p (V.insert latch) := by
  intro id' exit' l' latch' hit' hlatch
  have hsub := BlockSet.subset_insert V latch
  rcases BlockSet.mem_insert.mp hlatch with hold | rfl
  · exact (h id' exit' l' latch' hit' hold).imp_left (hsub id')
  · have hsame := hit'.advances.ending.symm.trans hit.advances.ending
    cases hsame
    exact .inl (hsub id hid)

end Ordered

/-! ## Nodes that hold the visited blocks -/

variable {p : Plan} {V V₁ V₂ V' W : BlockSet} {a b body : List Node} {n : Node}
  {id x y start stop join : Nat}

/-- A node whose own leaves hold the instructions of its own blocks. -/
def Faithful (p : Plan) (n : Node) : Prop :=
  n.ownLeaves.flatMap Leaf.instructions = n.ownBlocks.flatMap p.instructions

/-- Nodes that hold the blocks that are visited, in order. -/
structure Keeps (p : Plan) (V : BlockSet) (nodes : List Node) (V' : BlockSet) : Prop where
  faithful : Each (Faithful p) nodes
  visits : Visits p.flow V (gather Node.ownBlocks nodes) V'
  ordered : Ordered p V'

/-- The leaves hold the instructions of the blocks. -/
theorem flatMap_leaves (h : Each (Faithful p) body) :
    (Node.leaves body).flatMap Leaf.instructions =
      (gather Node.ownBlocks body).flatMap p.instructions := by
  unfold Node.leaves gather
  rw [List.flatMap_assoc, List.flatMap_assoc]
  exact List.flatMap_congr h

/-- A conditional before the next turn holds what it held, perhaps in another order. -/
theorem gather_continueEarly {α : Type} {g : Node → List α} {r : Region}
    (hif : ∀ i c a b, g (.ifElse i c a b) = []) (hturn : g .nextTurn = []) :
    (gather g [n]).Perm (gather g (Construct.continueEarly r id join n)) := by
  have hearly {i : Option Nat} {c : Expr} (a b : List Node) :
      gather g (.ifElse i c (a ++ [.nextTurn]) [] :: b) = gather g a ++ gather g b := by
    rw [Node.gather_cons, Node.gather_ifElse, Node.gather_append, Node.gather_nil, hif,
      Node.gather_lone g (n := .nextTurn) rfl, hturn, List.append_nil, List.append_nil,
      List.nil_append]
  unfold Construct.continueEarly
  split
  · rename_i i c whenTrue whenFalse
    have hown : gather g [.ifElse i c whenTrue whenFalse] =
        gather g whenTrue ++ gather g whenFalse := by
      rw [Node.gather_ifElse, hif, List.nil_append]
    dsimp only
    split
    · exact .refl _
    split
    · rw [hown, hearly]
    split
    · rw [hown, hearly]
      exact List.perm_append_comm
    · exact .refl _
  · exact .refl _

namespace Keeps

theorem subset (h : Keeps p V body V') : ∀ x ∈ V, x ∈ V' :=
  h.visits.subset

theorem nil (h : Ordered p V) : Keeps p V [] V :=
  ⟨Node.each_nil, visits_nil _ V, h⟩

theorem append (ha : Keeps p V a V₁) (hb : Keeps p V₁ b V₂) : Keeps p V (a ++ b) V₂ := by
  refine ⟨ha.faithful.append hb.faithful, ?_, hb.ordered⟩
  rw [Node.gather_append]
  exact ha.visits.append hb.visits

theorem cons (ha : Keeps p V [n] V₁) (hb : Keeps p V₁ b V₂) : Keeps p V (n :: b) V₂ :=
  ha.append hb

/-- A node that holds no block and no other nodes. -/
theorem lone (h : Ordered p V) (hn : n.ownBlocks = [] ∧ n.ownLeaves.flatMap Leaf.instructions = [])
    (hall : Node.preorderAll [n] = [n]) : Keeps p V [n] V := by
  refine ⟨Node.each_lone ?_ hall, ?_, h⟩
  · unfold Faithful
    rw [hn.1, hn.2]
    rfl
  · rw [Node.gather_lone _ hall, hn.1]
    exact visits_nil _ V

theorem block (hx : x ∉ V) (h : Ordered p (V.insert x)) (statements : List Stmt) :
    Keeps p V [.block (p.blockNode x statements)] (V.insert x) :=
  ⟨Node.each_lone rfl rfl, visits_insert (.inl hx), h⟩

theorem raw (hx : x ∉ V) (h : Ordered p (V.insert x)) (reason : RawReason) :
    Keeps p V [.raw (p.rawOf x reason)] (V.insert x) :=
  ⟨Node.each_lone rfl rfl, visits_insert (.inl hx), h⟩

theorem ifElse (ha : Keeps p V a V₁) (hb : Keeps p V₁ b V₂) (i : Option Nat) (c : Expr) :
    Keeps p V [.ifElse i c a b] V₂ := by
  refine ⟨.ifElse rfl ha.faithful hb.faithful, ?_, hb.ordered⟩
  rw [Node.gather_ifElse]
  exact ha.visits.append hb.visits

theorem stripNextTurn (h : Keeps p V body V') : Keeps p V (Node.stripNextTurn body) V' := by
  refine ⟨h.faithful.stripNextTurn, ?_, h.ordered⟩
  rw [Node.gather_stripNextTurn _ rfl]
  exact h.visits

theorem endless (h : Keeps p V body V') (c : Expr) : Keeps p V [.whileLoop c body none] V' := by
  refine ⟨.whileLoop rfl h.faithful, ?_, h.ordered⟩
  rw [Node.gather_whileLoop]
  exact h.visits

theorem tested (hx : x ∉ V) (h : Keeps p (V.insert x) body V') (c : Expr) :
    Keeps p V [.whileLoop c body (some (p.blockNode x))] V' := by
  refine ⟨.whileLoop rfl h.faithful, ?_, h.ordered⟩
  rw [Node.gather_whileLoop]
  exact (visits_insert (.inl hx)).append h.visits

theorem forLoop {setup latch i v : Nat} (hsetup : setup ∉ V)
    (hlatch : latch ∉ V.insert setup ∨ p.flow.Sidestepped latch)
    (h : Keeps p ((V.insert setup).insert latch) body V') (e : Expr) (s t : List Stmt) :
    Keeps p V [.forLoop i v e body (p.blockNode setup s) (p.blockNode latch t)] V' := by
  refine ⟨.forLoop rfl h.faithful, ?_, h.ordered⟩
  rw [Node.gather_forLoop]
  exact ((visits_insert (.inl hsetup)).append (visits_insert hlatch)).append h.visits

theorem matching {subject : Expr} {bodies : List (Expr × List Node)}
    {fallback : Option (List Node)} {tests : List Nat} (htests : Visits p.flow V tests V₁)
    (hfaithful : ∀ c ∈ bodies, Each (Faithful p) c.2)
    (hbodies : Visits p.flow V₁ (bodies.flatMap fun c => gather Node.ownBlocks c.2) V₂)
    (hfallback : Keeps p V₂ (fallback.getD []) V') (i : Option Nat) :
    Keeps p V [.matching i subject bodies fallback (tests.map (p.blockNode ·))] V' := by
  have hids : (Node.matching i subject bodies fallback (tests.map (p.blockNode ·))).ownBlocks =
      tests := by
    show (tests.map (p.blockNode ·)).map (·.id) = tests
    rw [List.map_map]
    exact List.map_id tests
  refine ⟨.matching ?_ hfaithful hfallback.faithful, ?_, hfallback.ordered⟩
  · unfold Faithful
    rw [hids]
    show ((tests.map (p.blockNode ·)).map Leaf.block).flatMap Leaf.instructions = _
    rw [List.map_map, List.flatMap_map]
    rfl
  · rw [Node.gather_matching, hids]
    exact htests.append (hbodies.append hfallback.visits)

/-- A conditional whose arms meet, with the test perhaps negated. -/
theorem ifElseOf (ha : Keeps p V a V₁) (hb : Keeps p V₁ b V₂) (id : Nat) (c : Expr) :
    Keeps p V [ifElseOf id c a b] V₂ := by
  unfold Structuring.ifElseOf
  split
  · rename_i hempty
    obtain ⟨rfl, -⟩ : a = [] ∧ b ≠ [] := by simpa using hempty
    have hall := ha.append hb
    rw [List.nil_append] at hall
    exact hall.ifElse (.nil hb.ordered) _ _
  · exact ha.ifElse hb _ _

/-- A conditional before the next turn holds the same blocks, perhaps in another order. -/
theorem continueEarly (h : Keeps p V [n] V') (r : Region) (id join : Nat) :
    Keeps p V (Construct.continueEarly r id join n) V' := by
  refine ⟨?_, h.visits.perm (gather_continueEarly (fun _ _ _ _ => rfl) rfl), h.ordered⟩
  have hfaithful := h.faithful
  have hearly {i : Option Nat} {c : Expr} {a b : List Node} (ha : Each (Faithful p) a)
      (hb : Each (Faithful p) b) : Each (Faithful p) (.ifElse i c (a ++ [.nextTurn]) [] :: b) := by
    have hif : Faithful p (.ifElse i c (a ++ [.nextTurn]) []) := rfl
    exact (Each.ifElse hif (ha.append (Node.each_lone rfl rfl)) Node.each_nil).cons hb
  unfold Construct.continueEarly
  split
  · obtain ⟨-, htrue, hfalse⟩ := Node.each_ifElse.mp hfaithful
    dsimp only
    split
    · exact hfaithful
    split
    · exact hearly htrue hfalse
    split
    · exact hearly hfalse htrue
    · exact hfaithful
  · exact hfaithful

end Keeps

end Structuring

end Unscript
