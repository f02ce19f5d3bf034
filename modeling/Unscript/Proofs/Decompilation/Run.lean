import Unscript.Decompilation.Run
import Unscript.Proofs.Outcome

/-!
# What a run does

A part of a run turns the result so far into another one, stops the run with a reason that has a
report, or ends it with a fault and no result. What it does never depends on the notes.

* `Decompiler.Run.Does`: what a part of a run does, from a result on.

Results: one rule for each way in which runs are put together, `Decompiler.Run.Does.mapM` for lists
among them.
-/

namespace Unscript.Decompiler.Run

variable {α β : Type} {x : Run α} {f : α → Run β} {u : UnitResult}
  {Q Q' : α → UnitResult → Prop} {R : β → UnitResult → Prop} {E E' : Stop → UnitResult → Prop}
  {X X' : StructureFault → Prop}

/-- What a part of a run does with a result: it goes on with `Q`, stops with `E` or ends with `X`. -/
def Does (x : Run α) (u : UnitResult) (Q : α → UnitResult → Prop) (E : Stop → UnitResult → Prop)
    (X : StructureFault → Prop) : Prop :=
  ∀ notes, match x.run.run (u, notes) with
    | (.ok a, u', _) => Q a u'
    | (.error (.inl stop), u', _) => E stop u'
    | (.error (.inr e), _) => X e

theorem does_pure {a : α} (h : Q a u) : Does (pure a) u Q E X :=
  fun _ => h

theorem does_stop {stop : Stop} (h : E stop u) : Does (throw (.inl stop)) u Q E X :=
  fun _ => h

theorem does_end {e : StructureFault} (h : X e) : Does (throw (.inr e)) u Q E X :=
  fun _ => h

theorem does_unitName {Q : String → UnitResult → Prop} (h : Q u.name u) : Does unitName u Q E X :=
  fun _ => h

theorem does_notes {ns : List Note} {Q : Unit → UnitResult → Prop} (h : Q () u) :
    Does (notes ns) u Q E X :=
  fun _ => h

theorem does_note {level : Level} {text : String} {Q : Unit → UnitResult → Prop} (h : Q () u) :
    Does (note level text) u Q E X :=
  does_notes h

theorem does_change {g : UnitResult → UnitResult} {Q : Unit → UnitResult → Prop} (h : Q () (g u)) :
    Does (change g) u Q E X :=
  fun _ => h

theorem Does.mono (h : Does x u Q E X) (hQ : ∀ a u', Q a u' → Q' a u')
    (hE : ∀ stop u', E stop u' → E' stop u') (hX : ∀ e, X e → X' e) : Does x u Q' E' X' := by
  intro notes
  have hx := h notes
  split at hx
  · exact hQ _ _ hx
  · exact hE _ _ hx
  · exact hX _ hx

/-- What a part of a run does when it goes on. -/
theorem Does.imp (h : Does x u Q E X) (hQ : ∀ a u', Q a u' → Q' a u') : Does x u Q' E X :=
  h.mono hQ (fun _ _ h => h) fun _ h => h

/-- One part goes on where another ends. -/
theorem Does.bind (hx : Does x u (fun a u' => Does (f a) u' R E X) E X) :
    Does (x >>= f) u R E X := by
  intro notes
  have hx := hx notes
  rw [Outcome.run_bind]
  cases hrun : x.run.run (u, notes) with
  | mk r s =>
    obtain ⟨u', notes'⟩ := s
    rw [hrun] at hx
    match r, hx with
    | .ok a, hx => exact hx notes'
    | .error (.inl stop), hx => exact hx
    | .error (.inr e), hx => exact hx

theorem does_noted {y : Noted α} (h : Q y.value u) : Does (noted y) u Q E X :=
  .bind (does_notes (does_pure h))

/-- What holds of every result along a list holds of the result at its end. -/
theorem Does.mapM {as : List α} {I : UnitResult → Prop} {S : α → β → Prop} (hu : I u)
    (h : ∀ a ∈ as, ∀ u', I u' → Does (f a) u' (fun b u'' => S a b ∧ I u'') E X) :
    Does (as.mapM f) u (fun bs u' => List.Forall₂ S as bs ∧ I u') E X := by
  induction as generalizing u with
  | nil =>
    rw [List.mapM_nil]
    exact does_pure ⟨.nil, hu⟩
  | cons a as ih =>
    rw [List.mapM_cons]
    refine .bind ((h a List.mem_cons_self u hu).imp ?_)
    rintro b u' ⟨hb, hu'⟩
    refine .bind ((ih hu' fun a ha => h a (List.mem_cons_of_mem _ ha)).imp ?_)
    rintro bs u'' ⟨hbs, hu''⟩
    exact does_pure ⟨.cons hb hbs, hu''⟩

end Unscript.Decompiler.Run
