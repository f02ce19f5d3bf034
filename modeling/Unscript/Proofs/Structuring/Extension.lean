import Unscript.Proofs.Structuring.Walk
import Unscript.Structuring.Body

/-!
# Walks that give up

A part of the walk may do what another one does, or give up on the way. Constructs are made of the
bodies inside them, so that a construct gives up only where one of these does; nothing else of it
depends on how they are built.

* `Structuring.Extends`: a part of the walk that does what another one does, or gives up.

Results:
* `Structuring.extends_build`: the construct at a block.
-/

namespace Unscript.Structuring

variable {α β : Type} {p : Plan} {lost : StructureFault → Prop}

/-- A part of the walk that does what another one does, or ends with one of some faults. -/
def Extends (lost : StructureFault → Prop) (m m' : Structuring α) : Prop :=
  ∀ w, (∃ e, lost e ∧ (m.run.run w).1 = .error e) ∨ m.run.run w = m'.run.run w

theorem extends_refl (m : Structuring α) : Extends lost m m :=
  fun _ => .inr rfl

/-- A part that gives up at once does what any other part does, as far as it goes. -/
theorem extends_of_lost {m m' : Structuring α} {e : StructureFault} (he : lost e)
    (h : ∀ w, (m.run.run w).1 = .error e) : Extends lost m m' :=
  fun w => .inl ⟨e, he, h w⟩

theorem Extends.bind {m m' : Structuring α} {k k' : α → Structuring β} (hm : Extends lost m m')
    (hk : ∀ a, Extends lost (k a) (k' a)) : Extends lost (m >>= k) (m' >>= k') := by
  intro w
  rw [Outcome.run_bind, Outcome.run_bind]
  rcases hm w with ⟨e, he, hlost⟩ | heq
  · cases hrun : m.run.run w with
    | mk result w' =>
      rw [hrun] at hlost
      cases hlost
      exact .inl ⟨e, he, rfl⟩
  · rw [← heq]
    cases m.run.run w with
    | mk result w' =>
      cases result with
      | error e => exact .inr rfl
      | ok a => exact hk a w'

/-- The same part with what follows it. -/
theorem Extends.after {m : Structuring α} {k k' : α → Structuring β}
    (hk : ∀ a, Extends lost (k a) (k' a)) : Extends lost (m >>= k) (m >>= k') :=
  (extends_refl m).bind hk

section Constructs

variable {build build' : BuildBody}
  (hb : ∀ entering start r, Extends lost (build entering start r) (build' entering start r))

include hb

theorem extends_arm (r : Region) (start join : Nat) :
    Extends lost (Construct.arm build r start join) (Construct.arm build' r start join) := by
  unfold Construct.arm
  split
  · exact extends_refl _
  · exact hb false start _

theorem extends_ifElse (id : Nat) (c : Expr) (arms : Nat × Nat) (join : Nat) (r : Region) :
    Extends lost (Construct.ifElse build id c arms join r)
      (Construct.ifElse build' id c arms join r) :=
  (extends_arm hb r _ join).bind fun _ => (extends_arm hb r _ join).bind fun _ => extends_refl _

theorem extends_arms (r : Region) (join : Nat) (cases : List (Expr × Nat)) :
    Extends lost (cases.mapM fun (pattern, start) => do
        return (pattern, ← Construct.arm build r start join))
      (cases.mapM fun (pattern, start) => do
        return (pattern, ← Construct.arm build' r start join)) := by
  induction cases with
  | nil => exact extends_refl _
  | cons c cases ih =>
    rw [List.mapM_cons, List.mapM_cons]
    exact ((extends_arm hb r c.2 join).bind fun _ => extends_refl _).bind fun _ =>
      ih.bind fun _ => extends_refl _

theorem extends_matching (id : Nat) (subject : Expr) (c : Chain) (join : Nat) (r : Region) :
    Extends lost (Construct.matching p build id subject c join r)
      (Construct.matching p build' id subject c join r) := by
  refine .after fun _ => (extends_arms hb r join c.cases).bind fun _ => ?_
  split
  · exact extends_refl _
  · rw [← bind_pure_comp, ← bind_pure_comp]
    exact ((hb false c.fallback _).bind fun _ => extends_refl _).bind fun _ => extends_refl _

theorem extends_divergent (id : Nat) (head : Node) (c : Expr) (arms : Nat × Nat) (r : Region) :
    Extends lost (Construct.divergent p build id head c arms r)
      (Construct.divergent p build' id head c arms r) := by
  refine .after fun w => ?_
  dsimp only
  split
  · exact (hb false arms.2 _).bind fun _ => extends_refl _
  split
  · exact (hb false arms.1 _).bind fun _ => extends_refl _
  split
  · exact (extends_ifElse hb id c arms _ r).bind fun _ => extends_refl _
  · exact extends_refl _

theorem extends_conditional (id : Nat) (l : Lifted) (arms : Nat × Nat) (r : Region) :
    Extends lost (Construct.conditional p build id l arms r)
      (Construct.conditional p build' id l arms r) := by
  refine .after fun c => ?_
  split
  · exact extends_refl _
  · exact extends_refl _
  · exact extends_refl _
  refine .after fun found => ?_
  split
  · exact (extends_matching hb id _ _ _ r).bind fun _ => extends_refl _
  · split
    · exact (extends_ifElse hb id c arms _ r).bind fun _ => extends_refl _
    · exact extends_divergent hb id _ c arms r
  · exact extends_divergent hb id _ c arms r

theorem extends_endless (l : Loop) :
    Extends lost (Construct.endless p build l) (Construct.endless p build' l) :=
  (hb true l.header _).bind fun _ => extends_refl _

theorem extends_loop (l : Loop) :
    Extends lost (Construct.loop p build l) (Construct.loop p build' l) := by
  unfold Construct.loop
  dsimp only
  split
  · exact extends_refl _
  refine .after fun lifted => ?_
  split
  · exact .after fun _ => extends_endless hb l
  refine .after fun found => ?_
  split
  · exact extends_endless hb l
  · refine .after fun _ => ?_
    split
    · exact extends_refl _
    · exact (hb false _ _).bind fun _ => extends_refl _

theorem extends_iteration (id body exit : Nat) :
    Extends lost (Construct.iteration p build id body exit)
      (Construct.iteration p build' id body exit) := by
  unfold Construct.iteration
  split
  · exact extends_refl _
  refine .after fun begun => .after fun advanced => ?_
  split
  · split
    · refine .after fun _ => .after fun _ => ?_
      split
      · exact extends_refl _
      · exact (hb false body _).bind fun _ => extends_refl _
    · exact extends_refl _
  · exact extends_refl _

theorem extends_plain (id : Nat) (r : Region) :
    Extends lost (Construct.plain p build id r) (Construct.plain p build' id r) := by
  refine .after fun _ => .after fun lifted => ?_
  cases lifted with
  | none => exact extends_refl _
  | some l =>
    dsimp only
    split
    · exact extends_conditional hb id l _ r
    · exact extends_refl _
    · exact extends_refl _

theorem extends_build (id : Nat) (r : Region) :
    Extends lost (Construct.build p build id r) (Construct.build p build' id r) := by
  refine .after fun _ => ?_
  split
  · exact extends_loop hb _
  · split
    · exact extends_iteration hb id _ _
    · exact extends_refl _
    · exact extends_plain hb id r

end Constructs

end Unscript.Structuring
