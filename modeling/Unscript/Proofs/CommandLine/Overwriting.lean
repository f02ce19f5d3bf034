import Unscript.Proofs.CommandLine.Delivery
import Unscript.Proofs.Decompilation.Bound

/-!
# Recovered scripts that are overwritten

A command recovers its inputs one after another and writes what it recovered. Scripts with the same
stem have the same target, wherever they stand if they go into a directory, and whatever suffix they
have if they go beside themselves. Of these only the last one is kept.

* `Commands.decompile_delivers`: what a command leaves of the texts that it recovered.
* `Commands.keeps_one`: scripts with one target.
* `Commands.not_forall_kept`: a text may be in no file in the end.

Results about forced dialects:
* `Decompiler.run_forced`: a run with a forced dialect needs nothing else of the registry.
-/

namespace Unscript

/-! ## Forced dialects -/

namespace Decompiler

variable {m : Decompiler} {key : Key} {d : Dialect} {registry : Registry}

theorem resolve_forced (hkey : m.version = some key) (hd : m.registry.get? key = some d)
    (hr : registry.get? key = some d) (c : Container) :
    ({ m with registry } : Decompiler).resolve c = m.resolve c := by
  unfold resolve
  simp only [hkey, hd, hr]

/-- A run with a forced dialect needs nothing else of the registry. -/
theorem run_forced (hkey : m.version = some key) (hd : m.registry.get? key = some d)
    (hr : registry.get? key = some d) (input : UnitInput) :
    ({ m with registry } : Decompiler).run input = m.run input := by
  have hrecover (c : Container) : ({ m with registry } : Decompiler).recoverContainer none c =
      m.recoverContainer none c := by
    unfold recoverContainer
    rw [resolve_forced hkey hd hr]
    rfl
  unfold run runOn stages
  simp only [hrecover]
  rfl

end Decompiler

namespace CommandLine.Commands

variable {r : DecompileRequest} {s s₁ s₂ s₃ final : Session} {o : Options} {a : Access}
  {key : Option String} {paths : List Path} {opened : List (Path × Container)} {errors : List String}
  {units : List UnitResult} {cs : List Container}

/-- A run with a forced dialect. -/
def forced (registry : Registry) (word : String) (o : Options) : Decompiler where
  registry
  options := o
  version := some (.text word)

/-- Recovering with a forced dialect needs nothing else of the registry. -/
theorem recover_forced {word : String} {d : Dialect} {registry : Registry}
    (hd : Registry.standard.get? (.text word) = some d) (hr : registry.get? (.text word) = some d) :
    recover o (some word) cs = (do
      let o ← Working.orFault .options o.usable
      let results ← Working.noted ((cs.map UnitInput.container).mapM (forced registry word o).run)
      Working.orFault .structuring (results.mapM id)) := by
  have hrun (o : Options) : (forced registry word o).run = (forced Registry.standard word o).run :=
    funext fun input => Decompiler.run_forced (m := forced Registry.standard word o) rfl hd hr input
  simp only [hrun]
  unfold recover
  rfl

/-- There is a result for every container. -/
theorem does_recover (o : Options) (dialect : Option String) (cs : List Container) :
    Working.Does (recover o dialect cs) s (fun units _ => units.length = cs.length)
      (fun _ _ => True) := by
  have hlength {results : List (Except StructureFault UnitResult)} {units : List UnitResult}
      (h : results.mapM id = .ok units) : units.length = results.length :=
    (Outcome.mapM_eq_ok.mp h).length_eq.symm
  unfold recover
  refine Working.Does.bind (Working.does_orFault (fun o _ => ?_) fun _ => trivial)
  cases dialect with
  | some word =>
    refine Working.Does.bind (Working.does_noted ?_)
    refine Working.Does.bind (Working.does_pure ?_)
    refine Working.does_orFault (fun units hunits => ?_) fun _ => trivial
    rw [hlength hunits, Noted.value_mapM, List.length_map, List.length_map]
  | none =>
    refine Working.Does.bind (Working.does_noted ?_)
    refine Working.does_orFault (fun units hunits => ?_) fun _ => trivial
    simp only [Decompiler.runAll, Noted.value_bind, Noted.value_mapM] at hunits
    split at hunits
    · cases hunits
    · rename_i found hfound
      cases hunits
      rw [hlength hfound, List.length_map, List.length_map]

/-! ## What is kept -/

theorem ofString_injective {text text' : String} (h : Bytes.ofString text = Bytes.ofString text') :
    text = text' := by
  have := (congrArg Bytes.toText? h).symm.trans (Bytes.toText?_ofString text)
  exact (Option.some.inj ((Bytes.toText?_ofString text').symm.trans this)).symm

/-- A text that was written is there in the end just when it was written to its place last. -/
theorem entryAt_iff_lastText? {written : List (Place × String)} {place : Place} {text : String}
    (h : s.Keeps final written) (hmem : (place, text) ∈ written) :
    final.files.entryAt? place = some (.file (Bytes.ofString text)) ↔
      Session.lastText? written place = some text := by
  obtain ⟨text', hlast⟩ := Session.exists_lastText? hmem
  obtain ⟨hfile, -⟩ := h.last place text' hlast
  rw [hfile, hlast, Option.some.injEq, Option.some.injEq, Entry.file.injEq]
  exact ⟨ofString_injective, congrArg Bytes.ofString⟩

theorem mem_deposits {goal : Path → Path} {us : List (Path × UnitResult)} {x : Path × UnitResult}
    {text : String} (hx : x ∈ us) (htext : x.2.source = some text) :
    (FileTree.placeOf (goal x.1), text) ∈ deposits goal us :=
  List.mem_filterMap.mpr ⟨x, hx, by rw [htext]; rfl⟩

/-- **What a command leaves of the texts that it recovered.** They are written one after another,
all of them unless a file cannot be written, and a report behind them if one is asked for. A text is in
its target in the end just when no other text and no report went there later; other files are left.
Several scripts have the same target just when they have the same stem, and stand beside each other
if no output is named. -/
theorem decompile_delivers (hstdout : r.toStdout = false)
    (hpaths : (Inputs.collect r.inputs).run.run s = (.ok paths, s₁)) (hne : paths ≠ [])
    (hopened : (Inputs.openAll a paths).run.run s₁ = (.ok (opened, errors), s₂))
    (hunits : (recover o r.dialect (opened.map (·.2))).run.run s₂ = (.ok units, s₃)) :
    units.length = opened.length ∧ ∃ ending final done rest tail,
      (decompile o a key r).run.run s = (ending, final) ∧
      (opened.map (·.1)).zip units = done ++ rest ∧
      (rest = [] ∨ ∃ e, ending = .error (.fault (.file e))) ∧ Reports r tail ∧
      (∀ x ∈ done, ∀ text, x.2.source = some text →
        let place := FileTree.placeOf (goal s₃.files r (1 < opened.length) x.1)
        (final.files.entryAt? place = some (.file (Bytes.ofString text)) ↔
          Session.lastText? (deposits (goal s₃.files r (1 < opened.length)) done ++ tail) place =
            some text)) ∧
      (∀ place bytes,
        Session.lastText? (deposits (goal s₃.files r (1 < opened.length)) done ++ tail) place = none →
        s₃.log ≠ some place → (final.files.entryAt? place = some (.file bytes) ↔
          s₃.files.entryAt? place = some (.file bytes))) ∧
      ∀ p q : Path, 1 < opened.length → p.Proper → q.Proper →
        (goal s₃.files r (1 < opened.length) p = goal s₃.files r (1 < opened.length) q ↔
          p.stem = q.stem ∧ (r.output = none → p.parent = q.parent)) := by
  have hlength : units.length = opened.length := by
    have := does_recover (s := s₂) o r.dialect (opened.map (·.2))
    unfold Working.Does at this
    rwa [hunits, List.length_map] at this
  have hgoal (p q : Path) (hmany : 1 < opened.length) (hp : p.Proper) (hq : q.Proper) :
      goal s₃.files r (1 < opened.length) p = goal s₃.files r (1 < opened.length) q ↔
        p.stem = q.stem ∧ (r.output = none → p.parent = q.parent) := by
    rw [decide_eq_true hmany]
    exact goal_eq_iff s₃.files r hp hq
  have hdecompile : Working.Does (decompile o a key r) s _ _ :=
    does_decompile hstdout hpaths hne hopened hunits
  unfold Working.Does at hdecompile
  refine ⟨hlength, ?_⟩
  split at hdecompile
  · rename_i code final hrun
    obtain ⟨tail, htail, hkeeps⟩ := hdecompile
    exact ⟨.ok code, final, _, [], tail, hrun, (List.append_nil _).symm, .inl rfl, htail,
      fun x hx text htext =>
        entryAt_iff_lastText? hkeeps (List.mem_append_left _ (mem_deposits hx htext)),
      hkeeps.others, hgoal⟩
  · rename_i halt final hrun
    obtain ⟨⟨e, rfl⟩, done, rest, hsplit, hkeeps⟩ := hdecompile
    rw [← List.append_nil (deposits _ done)] at hkeeps
    exact ⟨_, final, done, rest, [], hrun, hsplit, .inr ⟨e, rfl⟩, .inl rfl,
      fun x hx text htext =>
        entryAt_iff_lastText? hkeeps (List.mem_append_left _ (mem_deposits hx htext)),
      hkeeps.others, hgoal⟩

/-- The script of a base class, without functions. -/
def baseScript (base : UInt8) : List UInt8 :=
  Container.magic ++ [1, 0, 0, 0, 0] ++ [0, 0, 1, 0, 0, 0, base]

/-- Two scripts with the same name, one in a directory beside the other. -/
def twins : Session where
  files := .ofFiles [(Path.read "d/a.gdc", baseScript 65), (Path.read "d/b/a.gdc", baseScript 66)]

/-- A request to recover them into a directory. -/
def twinRequest : DecompileRequest where
  inputs := ["d"]
  output := some "out"
  dialect := some "0b806ee"

/-- Their paths. -/
def twinPaths : List Path :=
  [Path.read "d/a.gdc", Path.read "d/b/a.gdc"]

/-- The scripts at them. -/
def twinOpened : List (Path × Container) :=
  [(Path.read "d/a.gdc", ⟨[], [0, 0, 1, 0, 0, 0, 65], some 1, "a.gdc"⟩),
    (Path.read "d/b/a.gdc", ⟨[], [0, 0, 1, 0, 0, 0, 66], some 1, "a.gdc"⟩)]

/-- A registry of the oldest dialect alone. -/
def oldestAlone : Registry :=
  { Registry.standard with dialects := [Registry.oldest] }

/-- What the request recovers before anything is written. -/
theorem recovers_twins : ∃ s₁ s₂ s₃ opened errors units,
    (Inputs.collect twinRequest.inputs).run.run twins = (.ok twinPaths, s₁) ∧
    (Inputs.openAll {} twinPaths).run.run s₁ = (.ok (opened, errors), s₂) ∧
    (recover {} twinRequest.dialect (opened.map (·.2))).run.run s₂ = (.ok units, s₃) ∧
    opened.map (·.1) = twinPaths ∧
    units.map (·.source) = [some "extends A\n", some "extends B\n"] ∧
    s₃.files = twins.files ∧ s₃.log = none := by
  let s₁ := ((twinRequest.inputs.mapM Inputs.named).run.run twins).2
  let s₂ := ((Inputs.openAll {} twinPaths).run.run s₁).2
  have hnamed : ((twinRequest.inputs.mapM Inputs.named).run.run twins).1 = .ok [twinPaths] :=
    Outcome.toOption_eq_some.mp (by decide +kernel)
  have hsorted : Inputs.ordered [twinPaths].flatten = twinPaths := by
    unfold Inputs.ordered
    rw [List.mergeSort_of_pairwise (by decide +kernel)]
    decide +kernel
  have hcollect : (Inputs.collect twinRequest.inputs).run.run twins = (.ok twinPaths, s₁) := by
    unfold Inputs.collect
    rw [Outcome.run_bind,
      ← Prod.mk.eta (p := (twinRequest.inputs.mapM Inputs.named).run.run twins), hnamed]
    dsimp only
    rw [hsorted]
    rfl
  have hopened : ((Inputs.openAll {} twinPaths).run.run s₁).1 = .ok (twinOpened, []) :=
    Outcome.toOption_eq_some.mp (by decide +kernel)
  have hget : Registry.get? oldestAlone (.text "0b806ee") = some Registry.oldest :=
    Registry.get?_of_mem (by simp [Registry.ids, oldestAlone]) (by simp [oldestAlone])
      (by decide +kernel)
  have hrecover : recover {} (some "0b806ee") (twinOpened.map (·.2)) = _ :=
    recover_forced Registry.get?_oldest hget
  let result := (recover {} twinRequest.dialect (twinOpened.map (·.2))).run.run s₂
  have hsources : result.1.toOption.map (·.map (·.source)) =
      some [some "extends A\n", some "extends B\n"] := by
    unfold result twinRequest
    rw [hrecover]
    decide +kernel
  have hstate : result.2.files = twins.files ∧ result.2.log = none := by
    unfold result twinRequest
    rw [hrecover]
    decide +kernel
  obtain ⟨units, hunits, hsources⟩ := Option.map_eq_some_iff.mp hsources
  exact ⟨s₁, s₂, result.2, twinOpened, [], units, hcollect, Prod.ext hopened rfl,
    Prod.ext (Outcome.toOption_eq_some.mp hunits) rfl, rfl, hsources, hstate⟩

theorem decompile_delivers_twins : ∃ s₁ s₂ s₃ opened errors units,
    twinRequest.toStdout = false ∧
    (Inputs.collect twinRequest.inputs).run.run twins = (.ok twinPaths, s₁) ∧ twinPaths ≠ [] ∧
    (Inputs.openAll {} twinPaths).run.run s₁ = (.ok (opened, errors), s₂) ∧
    (recover {} twinRequest.dialect (opened.map (·.2))).run.run s₂ = (.ok units, s₃) ∧
    units.length = 2 ∧ goal s₃.files twinRequest (1 < opened.length) (Path.read "d/a.gdc") =
      goal s₃.files twinRequest (1 < opened.length) (Path.read "d/b/a.gdc") := by
  obtain ⟨s₁, s₂, s₃, opened, errors, units, hpaths, hopened, hunits, hof, -⟩ := recovers_twins
  have htwo : opened.length = 2 := by simpa [twinPaths] using congrArg List.length hof
  have hdelivers := @decompile_delivers twinRequest twins s₁ s₂ s₃ {} {} none twinPaths opened errors
    units rfl hpaths (List.cons_ne_nil _ _) hopened hunits
  obtain ⟨hlength, -, -, -, -, -, -, -, -, -, -, -, hgoal⟩ := hdelivers
  refine ⟨s₁, s₂, s₃, opened, errors, units, rfl, hpaths, List.cons_ne_nil _ _, hopened, hunits,
    hlength.trans htwo, ?_⟩
  exact (hgoal _ _ (by rw [htwo]; decide) (by unfold Path.Proper; decide)
    (by unfold Path.Proper; decide)).mpr
    ⟨by decide, nofun⟩

/-- If all scripts have one target and no report is asked for, files are written at one place. -/
theorem keeps_one {place : Place} (hstdout : r.toStdout = false) (hreport : r.report = none)
    (hpaths : (Inputs.collect r.inputs).run.run s = (.ok paths, s₁)) (hne : paths ≠ [])
    (hopened : (Inputs.openAll a paths).run.run s₁ = (.ok (opened, errors), s₂))
    (hunits : (recover o r.dialect (opened.map (·.2))).run.run s₂ = (.ok units, s₃))
    (hgoal : ∀ p ∈ opened.map (·.1),
      FileTree.placeOf (goal s₃.files r (1 < opened.length) p) = place) :
    ∃ written, s₃.Keeps ((decompile o a key r).run.run s).2 written ∧
      ∀ x ∈ written, x.1 = place := by
  have hplaces {done : List (Path × UnitResult)} (hdone : done ⊆ (opened.map (·.1)).zip units) :
      ∀ x ∈ deposits (goal s₃.files r (1 < opened.length)) done, x.1 = place := by
    intro x hx
    obtain ⟨y, hy, hx⟩ := List.mem_filterMap.mp hx
    obtain ⟨text, -, rfl⟩ := Option.map_eq_some_iff.mp hx
    exact hgoal y.1 (List.of_mem_zip (hdone hy)).1
  have hdecompile : Working.Does (decompile o a key r) s _ _ :=
    does_decompile hstdout hpaths hne hopened hunits
  unfold Working.Does at hdecompile
  split at hdecompile
  · rename_i hrun
    obtain ⟨tail, htail, hkeeps⟩ := hdecompile
    rcases htail with rfl | ⟨word, text, hword, -⟩
    · rw [hrun]
      refine ⟨_, hkeeps, ?_⟩
      rw [List.append_nil]
      exact hplaces (List.Subset.refl _)
    · cases hreport.symm.trans hword
  · rename_i hrun
    obtain ⟨-, done, rest, hsplit, hkeeps⟩ := hdecompile
    rw [hrun]
    exact ⟨_, hkeeps, hplaces (hsplit ▸ List.subset_append_left done rest)⟩

theorem goal_twins (t : FileTree) : ∀ p ∈ twinPaths,
    FileTree.placeOf (goal t twinRequest true p) = ["out", "a.gd"] := by
  rw [goal_several t {}]
  decide

/-- No file of theirs holds a recovered text. -/
theorem not_of_twins {text : String} (htext : text ∈ ["extends A\n", "extends B\n"])
    (place : Place) :
    twins.files.entryAt? place ≠ some (.file (Bytes.ofString text)) := by
  have hnone : ∀ text ∈ ["extends A\n", "extends B\n"], ∀ e ∈ twins.files.entries,
      e.2 ≠ .file (Bytes.ofString text) := by decide
  intro hfile
  unfold FileTree.entryAt? at hfile
  split at hfile
  · cases hfile
  · obtain ⟨l, l', hentries, -⟩ := List.lookup_eq_some_iff.mp hfile
    exact hnone text htext (place, _) (by rw [hentries]; simp) rfl

/-- A recovered text may be in no file in the end. -/
theorem not_forall_kept :
    ¬ ∀ (o : Options) (a : Access) (key : Option String) (r : DecompileRequest)
      (s s₁ s₂ s₃ : Session) (paths : List Path) (opened : List (Path × Container))
      (errors : List String) (units : List UnitResult),
      r.toStdout = false →
      (Inputs.collect r.inputs).run.run s = (.ok paths, s₁) →
      (Inputs.openAll a paths).run.run s₁ = (.ok (opened, errors), s₂) →
      (recover o r.dialect (opened.map (·.2))).run.run s₂ = (.ok units, s₃) →
      ∀ u ∈ units, ∀ text, u.source = some text → ∃ place,
        ((decompile o a key r).run.run s).2.files.entryAt? place =
          some (.file (Bytes.ofString text)) := by
  intro hall
  obtain ⟨s₁, s₂, s₃, opened, errors, units, hpaths, hopened, hunits, hof, hsources, hfiles,
    hlog⟩ := recovers_twins
  have htwo : opened.length = 2 := by simpa [twinPaths] using congrArg List.length hof
  have hkept := hall {} {} none twinRequest _ _ _ _ _ _ _ _ rfl hpaths hopened hunits
  obtain ⟨written, hkeeps, hplaces⟩ : ∃ written,
      s₃.Keeps ((decompile {} {} none twinRequest).run.run twins).2 written ∧
        ∀ x ∈ written, x.1 = ["out", "a.gd"] :=
    keeps_one rfl rfl hpaths (List.cons_ne_nil _ _) hopened hunits
      (by rw [hof, htwo]; exact goal_twins _)
  generalize ((decompile {} {} none twinRequest).run.run twins).2 = final at hkept hkeeps
  have hat {text : String} (htext : text ∈ ["extends A\n", "extends B\n"]) :
      final.files.entryAt? ["out", "a.gd"] = some (.file (Bytes.ofString text)) := by
    obtain ⟨u, hu, hsource⟩ : ∃ u ∈ units, u.source = some text := by
      have := List.mem_map_of_mem (f := some) htext
      rw [List.map_cons, List.map_cons, List.map_nil, ← hsources] at this
      exact List.mem_map.mp this
    obtain ⟨place, hplace⟩ := hkept u hu text hsource
    rcases eq_or_ne place ["out", "a.gd"] with rfl | hne
    · exact hplace
    · have hnone : Session.lastText? written place = none :=
        List.lookup_eq_none_iff.mpr fun x hx => by
          rw [hplaces x (List.mem_reverse.mp hx)]
          exact bne_iff_ne.mpr hne
      have hold := (hkeeps.others place _ hnone (by rw [hlog]; nofun)).mp hplace
      exact absurd (hfiles ▸ hold) (not_of_twins htext place)
  have hfirst := hat (List.mem_cons_self (a := "extends A\n"))
  have hsecond := hat (List.mem_cons_of_mem _ (List.mem_singleton_self "extends B\n"))
  exact absurd (hfirst.symm.trans hsecond) (by decide)

end CommandLine.Commands

end Unscript
