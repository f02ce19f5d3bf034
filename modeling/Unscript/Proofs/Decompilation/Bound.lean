import Unscript.Proofs.Decompilation.Results
import Unscript.Proofs.Registry.Concrete
import Unscript.Proofs.Script.Extent

/-!
# How much a run does

A run works on the functions that it decodes, and these stand on bytes of their own. A payload that
is broken may declare many more functions than it has bytes; the result has an entry for each of them
all the same.

* `UnitInput.contained`: the container of a unit.

Results:
* `Decompiler.run_finishes`: a run ends with a result for whatever it is given.
* `Decompiler.run_entries_bounded`: the entries with any work behind them are bounded by the payload,
  and all entries are if the declared count is.
* `Decompiler.not_forall_length_functions_le`: otherwise they are not.
-/

namespace Unscript

/-- The container of a unit, opened if it is given as a file. -/
def UnitInput.contained (input : UnitInput) : Except DecodeError Container :=
  match input with
  | .container c => .ok c
  | .blob bytes _ => Container.ofBytes bytes input.name

namespace Decompiler

variable {m : Decompiler} {u : UnitResult}

/-- A forced dialect is the one of its key. -/
theorem dialectOf_forced {c : Container} {key : Key} {d : Dialect} (hkey : m.version = some key)
    (hd : m.registry.get? key = some d) : m.dialectOf c = .ok d := by
  unfold dialectOf
  rw [hkey]
  dsimp only
  rw [hd]

/-! ## All units -/

theorem does_contained {input : UnitInput} (hname : u.name = input.name)
    {X : StructureFault → Prop} :
    Run.Does (opened input) u (fun c u' => input.contained = .ok c ∧ u' = u)
      (fun _ u' => (∀ c, input.contained ≠ .ok c) ∧ u' = u) X := by
  cases input with
  | container c => exact Run.does_pure ⟨rfl, rfl⟩
  | blob bytes name =>
    unfold UnitInput.contained
    rw [← hname]
    refine does_opened.mono (fun _ _ h => h) ?_ fun _ h => h
    rintro stop u' ⟨e, he, -, rfl⟩
    refine ⟨fun c hc => ?_, rfl⟩
    cases he.symm.trans hc

/-- **Every unit has a result,** which has entries if there is a dialect for it. -/
theorem run_finishes (hregistered : ∀ d ∈ m.registry.dialects, d.Registered)
    (hgo : ∀ c, m.cancelled c = false) (input : UnitInput) :
    ∃ u, (m.run input).value = .ok u ∧
      ((∃ c d, input.contained = .ok c ∧ m.dialectOf c = .ok d ∧ Finished m c d u) ∨
        (∀ c d, input.contained = .ok c → m.dialectOf c ≠ .ok d) ∧ u.functions = []) := by
  have hstages : Run.Does (m.stages none input) { name := input.name }
      (fun _ u => ∃ c d, input.contained = .ok c ∧ m.dialectOf c = .ok d ∧ Finished m c d u)
      (fun _ u => (∀ c d, input.contained = .ok c → m.dialectOf c ≠ .ok d) ∧ u.functions = [])
      (fun _ => False) := by
    unfold stages
    refine Run.Does.bind (does_checkpoint hgo ?_)
    refine Run.Does.bind ((does_contained rfl).mono ?_ ?_ fun _ h => h)
    · rintro c _ ⟨hc, rfl⟩
      refine (does_recoverContainer hregistered hgo c rfl).mono ?_ ?_ ?_
      · rintro _ u' ⟨⟨d, hd, hfinished⟩, -⟩
        exact ⟨c, d, hc, hd, hfinished⟩
      · rintro _ u' ⟨-, hnone, -, hfunctions⟩
        refine ⟨fun c' d hc' => ?_, hfunctions⟩
        cases hc.symm.trans hc'
        exact hnone d
      · rintro e ⟨-, hnot⟩
        exact hnot (suffices_none hregistered c)
    · rintro _ _ ⟨hnone, rfl⟩
      exact ⟨fun c _ hc => absurd hc (hnone c), rfl⟩
  have hends := hstages []
  have hrun : (m.stages none input).run ({ name := input.name }, []) =
    (m.stages none input).run.run ({ name := input.name }, []) := rfl
  unfold run runOn
  rw [hrun]
  split at hends
  · rename_i u notes hended
    rw [hended]
    exact ⟨u, rfl, .inl hends⟩
  · rename_i stop u notes hstopped
    rw [hstopped]
    exact ⟨_, rfl, .inr hends⟩
  · exact hends.elim

/-! ## The entries -/

/-- Nothing was done for the functions that were not decoded. -/
theorem idle_of_mem_missing {s : Script} {e : FunctionResult} (h : e ∈ missing s) :
    e.status = .failed ∧ e.source = none ∧ e.instructionCount = 0 := by
  unfold missing at h
  split at h
  · cases h
  · obtain ⟨k, -, rfl⟩ := List.mem_map.mp h
    exact ⟨rfl, rfl, rfl⟩

/-- **How much a run does.** A run that is not cancelled, with registered dialects, has no entries for
what has no dialect. Otherwise its entries are no more than the payload has bytes just when no more
functions are declared. However many are declared, all entries but the first ones are those of
functions for which nothing was done, and the first ones, each with its head and its instructions,
are bounded by the payload. -/
theorem run_entries_bounded (hregistered : ∀ d ∈ m.registry.dialects, d.Registered)
    (hgo : ∀ c, m.cancelled c = false) (input : UnitInput) :
    ∃ u, (m.run input).value = .ok u ∧
      ((∀ c d, input.contained = .ok c → m.dialectOf c ≠ .ok d) → u.functions = []) ∧
      ∀ c d, input.contained = .ok c → m.dialectOf c = .ok d →
        (u.functions.length ≤ c.payload.length ↔
          Script.declaredCount d c.payload ≤ c.payload.length) ∧
        ∃ worked idle, u.functions = worked ++ idle ∧
          (worked.map fun e => Decode.leastHead + e.instructionCount).sum ≤ c.payload.length ∧
          ∀ e ∈ idle, e.status = .failed ∧ e.source = none ∧ e.instructionCount = 0 := by
  obtain ⟨u, hu, hends⟩ := run_finishes hregistered hgo input
  refine ⟨u, hu, fun hnone => ?_, fun c d hc hd => ?_⟩
  · rcases hends with ⟨c, d, hc, hd, -⟩ | ⟨-, hfunctions⟩
    · exact absurd hd (hnone c d hc)
    · exact hfunctions
  · rcases hends with ⟨c', d', hc', hd', hfinished⟩ | ⟨hnone, -⟩
    · cases hc.symm.trans hc'
      cases hd.symm.trans hd'
      refine ⟨by rw [hfinished.accounts.length], ?_⟩
      obtain ⟨entries, henters, hentries⟩ := hfinished.entries
      refine ⟨entries, _, hentries, ?_, fun e he => idle_of_mem_missing he⟩
      have hcounts := Outcome.map_eq_of_forall₂ henters
        (g := fun e => Decode.leastHead + e.instructionCount)
        (k := fun f => Decode.leastHead + f.instructions.length) fun h => by rw [h.count]
      rw [hcounts]
      exact Script.sum_extents_le d c.payload
    · exact absurd hd (hnone c d hc)

/-- A unit of two bytes which declares three functions. -/
def declaring : Container :=
  ⟨[], [3, 0], some 1, Container.anonymous⟩

/-- A run over it with the oldest dialect. -/
def declaringRun : Decompiler where
  registry := Registry.standard
  options := {}
  version := some (.text "0b806ee")

theorem dialectOf_declaring : declaringRun.dialectOf declaring = .ok Registry.oldest :=
  dialectOf_forced rfl Registry.get?_oldest

theorem registered_declaring : ∀ d ∈ declaringRun.registry.dialects, d.Registered :=
  fun _ hd => Dialect.registered_of_mem hd

theorem run_entries_bounded_declaring :
    (∀ d ∈ declaringRun.registry.dialects, d.Registered) ∧ (∀ c, declaringRun.cancelled c = false) ∧
      ∃ u, (declaringRun.run (.container declaring)).value = .ok u ∧
        (u.functions.length ≤ 2 ↔ Script.declaredCount Registry.oldest [3, 0] ≤ 2) := by
  obtain ⟨u, hu, -, hbounded⟩ := run_entries_bounded registered_declaring (fun _ => rfl)
    (.container declaring)
  exact ⟨registered_declaring, fun _ => rfl, u, hu, (hbounded _ _ rfl dialectOf_declaring).1⟩

/-- A payload may have fewer bytes than there are entries. -/
theorem not_forall_length_functions_le :
    ¬ ∀ (payload : List UInt8) (key : Key) (u : UnitResult),
      (Registry.standard.get? key).isSome →
      (run { registry := Registry.standard, options := {}, version := some key }
        (.container ⟨[], payload, some 1, Container.anonymous⟩)).value = .ok u →
      u.functions.length ≤ payload.length := by
  intro hall
  obtain ⟨u, hu, hends⟩ := run_finishes registered_declaring (fun _ => rfl) (.container declaring)
  have hle := hall [3, 0] (.text "0b806ee") u (by rw [Registry.get?_oldest]; rfl) hu
  rcases hends with ⟨c, d, hc, hd, hfinished⟩ | ⟨hnone, -⟩
  · cases hc
    cases dialectOf_declaring.symm.trans hd
    rw [hfinished.accounts.length] at hle
    exact absurd hle (by decide +kernel)
  · exact hnone _ _ rfl dialectOf_declaring

end Decompiler

end Unscript
