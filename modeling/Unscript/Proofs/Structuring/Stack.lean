import Unscript.Proofs.Structuring.Extension
import Unscript.Structuring.Stack

/-!
# Structuring on a bounded stack

A bound on the calls that may be nested never changes what becomes of a function. Either there are
calls enough, and the function is structured as without a bound, or it is not structured at all.

Results:
* `Structuring.extends_bodyWithin`: bodies on a bounded stack.
* `Structured.ofInstructionsWithin_eq`: functions on a stack.
-/

namespace Unscript

namespace Structuring

/-- Bodies on a bounded stack. -/
theorem extends_bodyWithin (p : Plan) (fuel stack : Nat) (entering : Bool) (start : Nat)
    (r : Region) :
    Extends (· = .exhausted) (bodyWithin p fuel stack entering start r)
      (body p fuel entering start r) := by
  induction fuel generalizing stack entering start r with
  | zero => exact extends_refl _
  | succ fuel ih =>
    unfold bodyWithin body
    dsimp only
    split
    · exact extends_of_lost rfl fun _ => rfl
    refine .after fun w => ?_
    cases (if entering = true then Onward.builds else onward p.flow r w.visited start) with
    | ends nodes => exact extends_refl _
    | jumps reason => exact extends_refl _
    | builds =>
      dsimp only
      split
      · exact extends_of_lost rfl fun _ => rfl
      refine (extends_build (fun entering start inner => ih _ entering start inner) start r).bind
        fun c => ?_
      obtain ⟨nodes, next⟩ := c
      cases next with
      | none => exact extends_refl _
      | some id => exact (ih stack false id r).bind fun _ => extends_refl _

theorem extends_functionWithin (p : Plan) (stack : Nat) :
    Extends (· = .exhausted) (functionWithin p stack) (function p) :=
  (extends_bodyWithin p _ stack false 0 _).bind fun _ => extends_refl _

end Structuring

namespace Structured

/-- **A bounded stack** is exhausted, or a function is structured as on one without a bound. -/
theorem ofInstructionsWithin_eq (stack : Option Nat) (d : Dialect) (options : StructureOptions)
    (is : List Instruction) (length : Option Nat) :
    (ofInstructionsWithin stack d options is length).value = .error .exhausted ∨
      ofInstructionsWithin stack d options is length = ofInstructions d options is length := by
  cases stack with
  | none => exact .inr rfl
  | some calls =>
    unfold ofInstructionsWithin ofInstructions
    dsimp only
    split
    · exact .inr rfl
    cases Flow.build is length with
    | error e => exact .inr rfl
    | ok f =>
      dsimp only
      unfold ofPlanWithin ofPlan
      rcases Structuring.extends_functionWithin ⟨d, f, options⟩ calls {} with ⟨_, rfl, hlost⟩ | heq
      · have hrun : (Structuring.functionWithin ⟨d, f, options⟩ calls).run {} =
            (.error .exhausted, _) := Prod.ext hlost rfl
        rw [hrun]
        exact .inl rfl
      · have hrun : (Structuring.functionWithin ⟨d, f, options⟩ calls).run {} =
            (Structuring.function ⟨d, f, options⟩).run {} := heq
        rw [hrun]
        exact .inr rfl

end Structured

end Unscript
