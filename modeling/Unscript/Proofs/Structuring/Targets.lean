import Unscript.Proofs.Structuring.Count
import Unscript.Structuring.Body

/-!
# What the walk keeps of jumps

The walk keeps where the nodes that it makes jump to. Only nodes without structure jump, so what is
kept is what the raw nodes of the tree say.

* `Node.jumps`: where a node without structure jumps to.
* `Structuring.Grows`: targets kept of nodes.
* `Structuring.Aims`: what a part of the walk does with the targets, if it gives a result.

Results:
* `Structuring.Aims.bind`: what a sequence does.
* `Structuring.aims_build`, `Structuring.aims_body`: constructs and bodies.
* `Structuring.mem_gotos_of_function`: the targets that were kept of a function.
-/

namespace Unscript

open Node (gather)

/-- Where a node without structure jumps to. -/
def Node.jumps : Node → List Nat
  | .raw r => r.gotos
  | _ => []

namespace Structuring

/-- The targets of nodes are kept with others. -/
def Grows (G : BlockSet) (nodes : List Node) (G' : BlockSet) : Prop :=
  ∀ x, x ∈ G' ↔ x ∈ G ∨ x ∈ gather Node.jumps nodes

/-- What a part of the walk does from given targets on, if it gives a result. -/
def Aims {α : Type} (m : Structuring α) (G : BlockSet) (Q : α → BlockSet → Prop) : Prop :=
  ∀ w, w.gotos = G → ∀ a w', m.run.run w = (.ok a, w') → Q a w'.gotos

variable {α β : Type} {p : Plan} {G G₁ G₂ : BlockSet} {a b nodes : List Node} {id : Nat} {r : Region}

/-! ## Targets of nodes -/

theorem grows_of_nil (h : gather Node.jumps nodes = []) : Grows G nodes G := by
  intro x
  rw [h]
  simp

namespace Grows

theorem append (ha : Grows G a G₁) (hb : Grows G₁ b G₂) : Grows G (a ++ b) G₂ := by
  intro x
  rw [hb, ha, Node.gather_append, List.mem_append, or_assoc]

/-- A block at the head of nodes jumps nowhere. -/
theorem cons (h : Grows G nodes G₁) (block : BlockNode) :
    Grows G (.block block :: nodes) G₁ :=
  append (a := [.block block]) (grows_of_nil rfl) h

theorem of_perm (h : Grows G a G₁) (hperm : (gather Node.jumps a).Perm (gather Node.jumps b)) :
    Grows G b G₁ :=
  fun x => by rw [h, hperm.mem_iff]

theorem ifElse (h : Grows G (a ++ b) G₁) (i : Option Nat) (c : Expr) :
    Grows G [.ifElse i c a b] G₁ := by
  refine h.of_perm (.of_eq ?_)
  rw [Node.gather_append, Node.gather_ifElse]
  rfl

theorem lone (h : Grows G a G₁) (i : Option Nat) (c : Expr) : Grows G [.ifElse i c a []] G₁ :=
  ifElse (by rwa [List.append_nil]) i c

theorem continueEarly {n : Node} (h : Grows G [n] G₁) (r : Region) (id join : Nat) :
    Grows G (Construct.continueEarly r id join n) G₁ :=
  h.of_perm (gather_continueEarly (fun _ _ _ _ => rfl) rfl)

theorem whileLoop (h : Grows G nodes G₁) (c : Expr) (header : Option BlockNode) :
    Grows G [.whileLoop c (Node.stripNextTurn nodes) header] G₁ := by
  refine h.of_perm (.of_eq ?_)
  rw [Node.gather_whileLoop, Node.gather_stripNextTurn _ rfl]
  rfl

theorem forLoop (h : Grows G nodes G₁) (i v : Nat) (e : Expr) (setup latch : BlockNode) :
    Grows G [.forLoop i v e (Node.stripNextTurn nodes) setup latch] G₁ := by
  refine h.of_perm (.of_eq ?_)
  rw [Node.gather_forLoop, Node.gather_stripNextTurn _ rfl]
  rfl

end Grows

theorem jumps_exit? {f : Flow} {x : Nat} {n : Node} (h : r.exit? f x = some n) :
    gather Node.jumps [n] = [] := by
  unfold Region.exit? at h
  split at h
  · cases h
    rfl
  split at h
  · cases h
    rfl
  split at h
  · cases h
    rfl
  · cases h

theorem jumps_armExit? {f : Flow} {x : Nat} {n : Node} (h : r.armExit? f x = some n) :
    gather Node.jumps [n] = [] := by
  unfold Region.armExit? at h
  split at h
  · cases h
  · exact jumps_exit? h

/-! ## Rules -/

section Rules

variable {m : Structuring α} {k : α → Structuring β} {Q : α → BlockSet → Prop}
  {R : β → BlockSet → Prop}

theorem aims_pure {x : α} (h : Q x G) : Aims (pure x) G Q := by
  rintro w rfl _ _ ⟨⟩
  exact h

theorem aims_throw {e : StructureFault} : Aims (throw e : Structuring α) G Q := by
  rintro w rfl _ _ ⟨⟩

/-- A sequence does what its second part does after the first. -/
theorem Aims.bind (h : Aims m G fun x G' => Aims (k x) G' R) : Aims (m >>= k) G R := by
  intro w hw b w' hrun
  rw [Outcome.run_bind] at hrun
  cases hm : m.run.run w with
  | mk result w₁ =>
    rw [hm] at hrun
    cases result with
    | error e => cases hrun
    | ok x => exact h w hw x w₁ hm w₁ rfl b w' hrun

theorem Aims.mono {Q' : α → BlockSet → Prop} (h : Aims m G Q) (hQ : ∀ x G', Q x G' → Q' x G') :
    Aims m G Q' :=
  fun w hw x w' hrun => hQ x w'.gotos (h w hw x w' hrun)

theorem aims_get {k : Walk → Structuring α} (h : ∀ w, Aims (k w) G Q) : Aims (get >>= k) G Q :=
  fun w hw => h w w hw

theorem aims_modify {u : Walk → Walk} {Q : Unit → BlockSet → Prop}
    (hu : ∀ w, w.gotos = G → (u w).gotos = G₁) (h : Q () G₁) : Aims (modify u) G Q := by
  rintro w hw _ _ ⟨⟩
  exact hu w hw ▸ h

end Rules

/-! ## Single parts -/

section Parts

variable {Q : Unit → BlockSet → Prop}

theorem aims_note {text : String} (h : Q () G) : Aims (note text) G Q :=
  aims_modify (fun _ hw => hw) h

theorem aims_visit (h : Q () G) : Aims (visit id) G Q :=
  aims_modify (fun _ hw => hw) h

theorem aims_aim {targets : List Nat} (h : Q () (targets.foldl BlockSet.insert G)) :
    Aims (aim targets) G Q :=
  aims_modify (fun _ hw => by rw [hw]) h

theorem aims_step (h : Q () G) : Aims (step p id) G Q := by
  refine .bind (aims_modify (fun _ hw => hw) (aims_get fun w => ?_))
  split
  · exact aims_throw
  · exact aims_pure h

theorem aims_needed {value : Option Expr} {Q : Expr → BlockSet → Prop} (h : ∀ e, Q e G) :
    Aims (needed id value) G Q := by
  cases value with
  | none => exact aims_throw
  | some e => exact aims_pure (h e)

theorem aims_attempt {Q : Except LiftFault Lifted → BlockSet → Prop} (h : ∀ x, Q x G) :
    Aims (attempt p id) G Q := by
  refine aims_get fun w => ?_
  split
  · exact aims_pure (h _)
  · split
    · exact .bind (aims_modify (fun _ hw => hw) (aims_pure (h _)))
    · exact aims_pure (h _)

theorem aims_lift? {Q : Option Lifted → BlockSet → Prop} (h : ∀ x, Q x G) :
    Aims (lift? p id) G Q := by
  refine .bind (aims_attempt fun x => ?_)
  split
  · exact aims_pure (h _)
  · exact .bind (aims_note (aims_pure (h _)))
  · exact aims_throw

theorem mem_keep {xs : List Nat} {x : Nat} :
    x ∈ xs.foldl BlockSet.insert G ↔ x ∈ G ∨ x ∈ xs := by
  induction xs generalizing G with
  | nil => simp
  | cons y xs ih => rw [List.foldl_cons, ih, BlockSet.mem_insert, List.mem_cons, or_assoc]

theorem grows_raw (n : RawNode) : Grows G [.raw n] (n.gotos.foldl BlockSet.insert G) := by
  intro x
  rw [Node.gather_lone _ rfl]
  exact mem_keep

/-- The targets of a block without structure are kept. -/
theorem aims_raw {reason : RawReason} {Q : Node → BlockSet → Prop}
    (h : ∀ n G', Grows G [n] G' → Q n G') : Aims (raw p id reason) G Q := by
  have hkept (n : RawNode) : Q (.raw n) (n.gotos.foldl BlockSet.insert G) := h _ _ (grows_raw n)
  refine .bind (aims_visit (.bind (aims_attempt fun x => ?_)))
  split
  · exact .bind (aims_pure (.bind (aims_aim (aims_pure (hkept _)))))
  · split
    · exact .bind (aims_note (.bind (aims_pure (.bind (aims_aim (aims_pure (hkept _)))))))
    · exact .bind aims_throw

theorem aims_goto {target : Nat} {reason : RawReason} {Q : Node → BlockSet → Prop}
    (h : ∀ n G', Grows G [n] G' → Q n G') : Aims (goto target reason) G Q :=
  .bind (aims_aim (aims_pure (h _ _ (grows_raw { reason, gotos := [target] }))))

end Parts

/-! ## Chains -/

theorem aims_pattern? {s : Chain.Scope} {previous : Nat} {Q : Option Expr → BlockSet → Prop}
    (h : ∀ x, Q x G) : Aims (Chain.pattern? p s previous id) G Q := by
  refine aims_get fun w => ?_
  split
  · exact aims_pure (h _)
  refine .bind (aims_lift? fun x => ?_)
  split
  · exact aims_pure (h _)
  split
  · exact aims_pure (h _)
  split
  · split <;> exact aims_pure (h _)
  · exact aims_pure (h _)

theorem aims_extend {s : Chain.Scope} {fuel current : Nat} {c : Chain} {Q : Chain → BlockSet → Prop}
    (h : ∀ c, Q c G) : Aims (Chain.extend p s fuel current c) G Q := by
  induction fuel generalizing current c with
  | zero => exact aims_pure (h c)
  | succ fuel ih =>
    refine .bind (aims_pattern? fun x => ?_)
    split
    · exact ih
    · exact aims_pure (h c)

theorem aims_chain {l : Lifted} {Q : Option (Expr × Chain) → BlockSet → Prop} (h : ∀ x, Q x G) :
    Aims (Chain.of? p id l r) G Q := by
  unfold Chain.of?
  split
  · split
    · exact aims_pure (h _)
    · refine .bind (aims_extend fun c => ?_)
      split <;> exact aims_pure (h _)
  · exact aims_pure (h _)

/-! ## Constructs -/

section Constructs

variable {build : BuildBody} (hb : ∀ entering start r G, Aims (build entering start r) G (Grows G))

include hb

theorem aims_arm {start join : Nat} {Q : List Node → BlockSet → Prop}
    (h : ∀ nodes G', Grows G nodes G' → Q nodes G') :
    Aims (Construct.arm build r start join) G Q := by
  unfold Construct.arm
  split
  · exact aims_pure (h _ _ (grows_of_nil rfl))
  · exact (hb _ _ _ _).mono h

theorem aims_ifElse {c : Expr} {arms : Nat × Nat} {join : Nat} {Q : Node → BlockSet → Prop}
    (h : ∀ n G', Grows G [n] G' → Q n G') :
    Aims (Construct.ifElse build id c arms join r) G Q := by
  refine .bind (aims_arm hb fun whenTrue G₁ htrue => ?_)
  refine .bind (aims_arm hb fun whenFalse G₂ hfalse => aims_pure (h _ _ ?_))
  split
  · rename_i hempty
    obtain ⟨rfl, -⟩ : whenTrue = [] ∧ whenFalse ≠ [] := by simpa using hempty
    exact (htrue.append hfalse).lone _ _
  · exact (htrue.append hfalse).ifElse _ _

theorem aims_arms {cases : List (Expr × Nat)} {join : Nat}
    {Q : List (Expr × List Node) → BlockSet → Prop}
    (h : ∀ bodies G', Grows G (bodies.flatMap (·.2)) G' → Q bodies G') :
    Aims (cases.mapM fun (pattern, start) => do
      return (pattern, ← Construct.arm build r start join)) G Q := by
  induction cases generalizing G Q with
  | nil => exact aims_pure (h _ _ (grows_of_nil rfl))
  | cons c cases ih =>
    rw [List.mapM_cons]
    refine .bind (.bind (aims_arm hb fun nodes G₁ hnodes => aims_pure ?_))
    refine .bind (ih fun bodies G₂ hbodies => aims_pure (h _ _ ?_))
    exact hnodes.append hbodies

theorem aims_matching {subject : Expr} {c : Chain} {join : Nat} {Q : Node → BlockSet → Prop}
    (h : ∀ n G', Grows G [n] G' → Q n G') :
    Aims (Construct.matching p build id subject c join r) G Q := by
  have hvisits {tests : List Nat} {Q : Unit → BlockSet → Prop} (h : Q () G) :
      Aims (forIn tests () fun test _ => do
        visit test
        return ForInStep.yield ()) G Q := by
    induction tests with
    | nil => exact aims_pure h
    | cons t tests ih =>
      rw [List.forIn_cons]
      exact .bind (.bind (aims_visit (aims_pure ih)))
  have hnode {bodies : List (Expr × List Node)} {fallback : Option (List Node)} {G₁ G₂ : BlockSet}
      (hbodies : Grows G (bodies.flatMap (·.2)) G₁) (hlast : Grows G₁ (fallback.getD []) G₂) :
      Grows G [.matching (some id) subject bodies fallback (c.tests.map (p.blockNode ·))] G₂ := by
    refine (hbodies.append hlast).of_perm (.of_eq ?_)
    rw [Node.gather_append, Node.gather_matching, Node.gather_flatMap]
    rfl
  refine .bind (hvisits (.bind (aims_arms hb fun bodies G₁ hbodies => ?_)))
  split
  · exact .bind (aims_pure (aims_pure (h _ _ (hnode hbodies (grows_of_nil rfl)))))
  · refine .bind ?_
    rw [← bind_pure_comp]
    refine .bind ((hb _ _ _ _).mono fun nodes G₂ hlast => aims_pure (aims_pure (h _ _ ?_)))
    have hfallback : Grows G₁ ((some nodes).getD []) G₂ := hlast
    exact hnode hbodies hfallback

theorem aims_divergent {block : BlockNode} {c : Expr} {arms : Nat × Nat} :
    Aims (Construct.divergent p build id (.block block) c arms r) G fun c G' => Grows G c.1 G' := by
  refine aims_get fun w => ?_
  dsimp only
  split
  · exact .bind ((hb _ _ _ _).mono fun body G' h => aims_pure ((h.lone _ _).cons block))
  split
  · exact .bind ((hb _ _ _ _).mono fun body G' h => aims_pure ((h.lone _ _).cons block))
  split
  · exact .bind (aims_ifElse hb fun n G' h => aims_pure (h.cons block))
  · exact .bind (aims_note (.bind (aims_raw fun n G' h => aims_pure h)))

theorem aims_conditional {l : Lifted} {arms : Nat × Nat} :
    Aims (Construct.conditional p build id l arms r) G fun c G' => Grows G c.1 G' := by
  refine .bind (aims_needed fun c => ?_)
  split
  · rename_i t e ht he
    refine aims_pure (.cons (grows_of_nil ?_) _)
    rw [Node.gather_ifElse, jumps_armExit? ht, jumps_armExit? he]
    rfl
  · rename_i e ht he
    refine aims_pure (.cons (.lone (grows_of_nil (jumps_armExit? he)) _ _) _)
  · rename_i t ht he
    refine aims_pure (.cons (.lone (grows_of_nil (jumps_armExit? ht)) _ _) _)
  refine .bind (aims_chain fun chain => ?_)
  split
  · exact .bind (aims_matching hb fun n G' h => aims_pure (h.cons _))
  · split
    · exact .bind (aims_ifElse hb fun n G' h => aims_pure ((h.continueEarly r id _).cons _))
    · exact aims_divergent hb
  · exact aims_divergent hb

theorem aims_loop {l : Loop} :
    Aims (Construct.loop p build l) G fun c G' => Grows G c.1 G' := by
  have hendless : Aims (Construct.endless p build l) G fun c G' => Grows G c.1 G' :=
    .bind ((hb _ _ _ _).mono fun body G' h => aims_pure (h.whileLoop _ _))
  have htest {lifted : Option Lifted} {Q : Option (Expr × Nat × Nat) → BlockSet → Prop}
      (h : ∀ x, Q x G) : Aims (Construct.loopTest? p l lifted) G Q := by
    unfold Construct.loopTest?
    split
    · split
      · exact aims_pure (h _)
      split
      · exact .bind (aims_needed fun e => aims_pure (h _))
      · exact .bind (aims_needed fun e => aims_pure (h _))
      · exact aims_pure (h _)
    · exact aims_pure (h _)
  unfold Construct.loop
  dsimp only
  split
  · exact .bind (aims_note (.bind (aims_raw fun n G' h => aims_pure h)))
  refine .bind (aims_lift? fun lifted => ?_)
  split
  · exact .bind (aims_note hendless)
  refine .bind (htest fun t => ?_)
  split
  · exact hendless
  · refine .bind (aims_visit ?_)
    split
    · exact .bind (aims_pure (aims_pure (.whileLoop (grows_of_nil rfl) _ _)))
    · exact .bind ((hb _ _ _ _).mono fun body G' h => aims_pure (h.whileLoop _ _))

theorem aims_iteration {body exit : Nat} :
    Aims (Construct.iteration p build id body exit) G fun c G' => Grows G c.1 G' := by
  unfold Construct.iteration
  split
  · exact .bind (aims_note (.bind (aims_raw fun n G' h => aims_pure h)))
  refine .bind (aims_lift? fun begun => .bind (aims_lift? fun advanced => ?_))
  split
  · split
    · refine .bind (aims_visit (.bind (aims_visit ?_)))
      split
      · refine .bind (aims_pure (.bind (aims_needed fun e => aims_pure ?_)))
        exact .forLoop (grows_of_nil rfl) _ _ _ _ _
      · refine .bind ((hb _ _ _ _).mono fun nodes G' h => .bind (aims_needed fun e => aims_pure ?_))
        exact h.forLoop _ _ _ _ _
    · exact aims_throw
  · exact .bind (aims_raw fun n G' h => aims_pure h)

theorem aims_plain : Aims (Construct.plain p build id r) G fun c G' => Grows G c.1 G' := by
  refine .bind (aims_visit (.bind (aims_lift? fun lifted => ?_)))
  split
  · refine .bind (aims_raw fun n G' h => ?_)
    split <;> exact aims_pure h
  · split
    · exact aims_conditional hb
    · exact aims_pure (.cons (grows_of_nil rfl) _)
    · exact aims_pure (grows_of_nil rfl)

/-- The construct at a block. -/
theorem aims_build : Aims (Construct.build p build id r) G fun c G' => Grows G c.1 G' := by
  refine .bind (aims_step ?_)
  split
  · exact aims_loop hb
  · split
    · exact aims_iteration hb
    · exact .bind (aims_raw fun n G' h => aims_pure h)
    · exact aims_plain hb

end Constructs

/-! ## Bodies -/

theorem jumps_onward {f : Flow} {V : BlockSet} (h : onward f r V id = .ends nodes) :
    gather Node.jumps nodes = [] := by
  obtain ⟨-, rfl⟩ | ⟨-, n, hn, rfl⟩ := ends_of_onward h
  · rfl
  · exact jumps_exit? hn

/-- Every body, by induction on its fuel. -/
theorem aims_body (fuel : Nat) : ∀ entering start r G,
    Aims (body p fuel entering start r) G (Grows G) := by
  induction fuel with
  | zero => exact fun _ _ _ _ => aims_throw
  | succ fuel ih =>
    intro entering start r G
    refine aims_get fun w => ?_
    dsimp only
    split
    · rename_i nodes honward
      refine aims_pure (grows_of_nil ?_)
      cases entering with
      | false => exact jumps_onward honward
      | true => cases honward
    · exact .bind (aims_goto fun n G' h => aims_pure h)
    · refine .bind ((aims_build ih).mono fun c G₁ h => ?_)
      obtain ⟨nodes, next⟩ := c
      cases next with
      | none => exact aims_pure h
      | some next => exact .bind ((ih _ _ _ _).mono fun rest G₂ hrest => aims_pure (h.append hrest))

theorem aims_leftovers : Aims (leftovers p) G (Grows G) := by
  have hraws {ids : List Nat} {reason : Nat → RawReason} {G : BlockSet}
      {Q : List Node → BlockSet → Prop} (h : ∀ nodes G', Grows G nodes G' → Q nodes G') :
      Aims (ids.mapM fun id => raw p id (reason id)) G Q := by
    induction ids generalizing G Q with
    | nil => exact aims_pure (h _ _ (grows_of_nil rfl))
    | cons id ids ih =>
      rw [List.mapM_cons]
      refine .bind (aims_raw fun n G₁ hn => .bind (ih fun nodes G₂ hnodes => aims_pure (h _ _ ?_)))
      exact hn.append (a := [n]) hnodes
  exact aims_get fun w => hraws fun _ _ h => h

theorem aims_checkCoverage {Q : Unit → BlockSet → Prop} (h : Q () G) :
    Aims (checkCoverage p nodes) G Q := by
  unfold checkCoverage
  dsimp only
  split
  · exact aims_throw
  · split
    · exact aims_throw
    · exact aims_pure h

/-- **What is kept of a function:** where the raw nodes of its tree jump to. -/
theorem mem_gotos_of_function {w : Walk} (h : (function p).run.run {} = (.ok nodes, w)) {x : Nat} :
    x ∈ w.gotos ↔ x ∈ gather Node.jumps nodes := by
  have haims : Aims (function p) .empty (Grows .empty) :=
    .bind ((aims_body _ _ _ _ _).mono fun walked G₁ hwalked =>
      .bind (aims_leftovers.mono fun rest G₂ hrest =>
        .bind (aims_checkCoverage (aims_pure (hwalked.append hrest)))))
  have hgrows := haims {} rfl nodes w h x
  rwa [or_iff_right (BlockSet.not_mem_empty x)] at hgrows

end Structuring

end Unscript
