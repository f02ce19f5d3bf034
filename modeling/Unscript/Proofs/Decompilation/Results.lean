import Unscript.Proofs.Decompilation.Run
import Unscript.Proofs.Detection.Choice
import Unscript.Proofs.Structuring.Origin
import Unscript.Proofs.Structuring.Reconstruction
import Unscript.Proofs.Structuring.Stack

/-!
# Results of a run

A run over a byte string has a result if no function that it decodes needs more nested calls than the
host has for it; where one does, the run ends with a fault and nothing of the unit is left. A result
has an entry for every function that the payload declares, whatever fails in whichever of them, and an
entry says that a function is fine only if it was decoded, structured and written in full.

* `Decompiler.dialectOf`: the dialect that a run takes.
* `RawNode.InReach`: raw nodes that control can come to.
* `Decompiler.Recovered`: what it takes for a function to be fine.
* `Decompiler.Accounts`: the entries of a result, for a payload.
* `Decompiler.Finished`: the entries of a result, decoded functions first.
* `Decompiler.Settles`: what a result says about a byte string.
* `Decompiler.Fits`: a function that needs no more calls than there are, `Decompiler.Suffices`: a unit
  all of whose decoded functions do.

Results:
* `Decompiler.does_structureFunction`, `Decompiler.does_write`: what becomes of one function.
* `Decompiler.does_recoverContainer`, `Decompiler.does_stages`: what becomes of a unit.
* `Decompiler.runOn_settles`: a run has such a result just when there are calls enough.
-/

namespace Unscript

open Number (Numeric)

/-- Whether control can come to a raw node: its block is in reach, or it is a bare jump. -/
def RawNode.InReach (f : Flow) (r : RawNode) : Prop :=
  ∀ id, r.block = some id → id ∈ f.reachable

theorem Registry.mem_of_get? {r : Registry} {key : Key} {d : Dialect} (h : r.get? key = some d) :
    d ∈ r.dialects := by
  unfold Registry.get? Registry.lookup? at h
  cases hid : key.id with
  | error e => simp [hid, Except.map] at h
  | ok id =>
    rw [hid] at h
    exact List.mem_of_find?_eq_some h

theorem Detection.require_eq_ok {x : Detection} {d : Dialect} :
    x.require = .ok d ↔ x.version = some d := by
  unfold Detection.require
  split <;> simp [*]

/-- A raw node that does not count as a transfer falls through, or control does not come to it. -/
theorem Structured.fallthrough_of_rawTransfers {d : Dialect} {options : StructureOptions}
    {is : List Instruction} {length : Option Nat} {s : Structured}
    (h : (ofInstructions d options is length).value = .ok s) (hzero : s.rawTransfers = 0)
    {r : RawNode} (hr : r ∈ Node.raws s.body) :
    ∃ f, Flow.build is length = .ok f ∧ (r.InReach f → r.ending = .fallthrough) := by
  obtain ⟨f, hbuild, hkeeps⟩ := keeps_of_ofInstructions h hr
  refine ⟨f, hbuild, fun hreach => ?_⟩
  have hcount := List.countP_eq_zero.mp hzero r hr
  by_contra hending
  have hreason : r.reason = .unreachable := by simpa [hending] using hcount
  cases hkeeps with
  | block _ hout => exact hout hreason (hreach _ rfl)
  | jump _ hnot => exact hnot hreason

namespace Decompiler

variable {m : Decompiler} {stack : Option Nat} {d : Dialect} {u : UnitResult}
  {E : Stop → UnitResult → Prop} {X : StructureFault → Prop}

/-! ## What results say -/

/-- The dialect that a run takes for a unit: the forced one, or the one that is found. -/
def dialectOf (m : Decompiler) (c : Container) : Except VersionFault Dialect :=
  match m.version with
  | some key =>
    match m.registry.get? key with
    | some d => .ok d
    | none => .error (.unknown key.shown)
  | none => (Detection.ofContainer m.registry m.options.detection c).value.require

/-- A function that is fine: it was decoded to its end, and it has a tree with little raw code, in
which raw code that control comes to falls through. -/
structure Recovered (m : Decompiler) (d : Dialect) (f : Function) (e : FunctionResult) : Prop where
  error : e.error = none
  complete : f.complete
  tree : ∃ s, (Structured.ofInstructions d m.options.structuring f.instructions
      (some f.codeLength)).value = .ok s ∧
    Numeric.lt m.options.rawBlockLimit (.real s.rawRatio) = false ∧
    ∀ r ∈ Node.raws s.body, ∃ flow, Flow.build f.instructions (some f.codeLength) = .ok flow ∧
      (r.InReach flow → r.ending = .fallthrough)

/-- The entries of a result account for the functions of a payload. -/
structure Accounts (m : Decompiler) (d : Dialect) (payload : List UInt8) (u : UnitResult) :
    Prop where
  /-- There are as many entries as the payload declares functions. -/
  length : u.functions.length = Script.declaredCount d payload
  /-- The entries know their places. -/
  index : ∀ (i : Nat) (e : FunctionResult), u.functions[i]? = some e → e.index = i
  /-- An entry has failed just when it has no text. -/
  failed_iff : ∀ e ∈ u.functions, e.status = .failed ↔ e.source = none
  /-- An entry is fine only if its function is. -/
  recovered : ∀ (i : Nat) (e : FunctionResult), u.functions[i]? = some e → e.status = .ok →
    ∃ f, (Script.decode d payload).functions[i]? = some f ∧ Recovered m d f e

/-- What a result says about a byte string under a name. -/
structure Settles (m : Decompiler) (bytes : List UInt8) (name : String) (u : UnitResult) :
    Prop where
  /-- Nothing is recovered of what is no container. -/
  unreadable : ∀ e, Container.ofBytes bytes name = .error e →
    u.version = none ∧ u.source = none ∧ u.functions = []
  /-- Nothing is recovered of a container without a dialect. -/
  unresolved : ∀ c, Container.ofBytes bytes name = .ok c → (∀ d, m.dialectOf c ≠ .ok d) →
    u.version = none ∧ u.source = none ∧ u.functions = []
  /-- Otherwise all functions are accounted for. -/
  resolved : ∀ c d, Container.ofBytes bytes name = .ok c → m.dialectOf c = .ok d →
    u.version = some d.id ∧ u.source.isSome ∧ Accounts m d c.payload u
  /-- A unit is fine just when nothing is wrong with it and all its functions are fine. -/
  ok_iff : u.status = .ok ↔ u.error = none ∧ ∀ e ∈ u.functions, e.status = .ok

/-! ## What a run needs -/

/-- There are calls enough to structure a function. -/
def CanStructure (m : Decompiler) (stack : Option Nat) (d : Dialect) (f : Function) : Prop :=
  (Structured.ofInstructionsWithin stack d m.options.structuring f.instructions
    (some f.codeLength)).value ≠ .error .exhausted

/-- There are calls enough to write the tree of a function, if it has one. -/
def CanWrite (m : Decompiler) (stack : Option Nat) (d : Dialect) (style : Source.Style)
    (f : Function) : Prop :=
  ∀ s, (Structured.ofInstructions d m.options.structuring f.instructions
      (some f.codeLength)).value = .ok s →
    ∀ calls ∈ stack, Source.functionCalls style f.header f.constants (.ofStructured s) ≤ calls

/-- A function that needs no more calls than there are. -/
structure Fits (m : Decompiler) (stack : Option Nat) (d : Dialect) (style : Source.Style)
    (f : Function) : Prop where
  structured : m.CanStructure stack d f
  written : m.CanWrite stack d style f

instance (f : Function) : Decidable (m.CanStructure stack d f) :=
  inferInstanceAs (Decidable (¬ _ = Except.error StructureFault.exhausted))

instance (style : Source.Style) (f : Function) : Decidable (m.CanWrite stack d style f) :=
  inferInstanceAs (Decidable (∀ s, _ = Except.ok s → ∀ calls ∈ stack, _ ≤ calls))

instance (style : Source.Style) (f : Function) : Decidable (m.Fits stack d style f) :=
  decidable_of_iff (m.CanStructure stack d f ∧ m.CanWrite stack d style f)
    ⟨fun h => ⟨h.1, h.2⟩, fun h => ⟨h.structured, h.written⟩⟩

/-- There are calls enough for all functions that are decoded of a unit. -/
def Suffices (m : Decompiler) (stack : Option Nat) (c : Container) : Prop :=
  ∀ d, m.dialectOf c = .ok d → ∀ f ∈ (Script.decode d c.payload).functions,
    m.Fits stack d (m.styleOf d (Script.decode d c.payload)) f

/-! ## The dialect -/

theorem mem_of_dialectOf {c : Container} (h : m.dialectOf c = .ok d) : d ∈ m.registry.dialects := by
  unfold dialectOf at h
  split at h
  · split at h
    · rename_i hget
      cases h
      exact Registry.mem_of_get? hget
    · cases h
  · exact Detection.mem_of_version (Detection.require_eq_ok.mp h)

/-- The result grows by what is found and a warning, or the run stops for want of a dialect. -/
theorem does_resolve (c : Container) :
    Run.Does (m.resolve c) u
      (fun d u' => m.dialectOf c = .ok d ∧ u'.cancelled = u.cancelled)
      (fun stop u' => (∃ e, stop = .version e) ∧ (∀ d, m.dialectOf c ≠ .ok d) ∧
        u'.version = u.version ∧ u'.functions = u.functions) X := by
  unfold resolve dialectOf
  cases m.version with
  | some key =>
    dsimp only
    cases m.registry.get? key with
    | some d => exact Run.does_pure ⟨rfl, rfl⟩
    | none => exact Run.does_stop ⟨⟨_, rfl⟩, nofun, rfl, rfl⟩
  | none =>
    refine Run.Does.bind (Run.does_noted ?_)
    refine Run.Does.bind (Run.does_change ?_)
    cases (Detection.ofContainer m.registry m.options.detection c).value.require with
    | error e => exact Run.does_stop ⟨⟨e, rfl⟩, nofun, rfl, rfl⟩
    | ok d =>
      dsimp only
      split
      · refine Run.Does.bind (Run.does_unitName ?_)
        refine Run.Does.bind (Run.does_note ?_)
        refine Run.Does.bind (Run.does_change ?_)
        exact Run.does_pure ⟨rfl, rfl⟩
      · exact Run.does_pure ⟨rfl, rfl⟩

/-! ## One function -/

/-- A result that differs from another in its warnings only. -/
def Warns (u u' : UnitResult) : Prop :=
  ∃ warnings, u' = { u with warnings }

theorem Warns.refl (u : UnitResult) : Warns u u :=
  ⟨u.warnings, rfl⟩

theorem Warns.trans {u₁ u₂ u₃ : UnitResult} (h : Warns u₁ u₂) (h' : Warns u₂ u₃) : Warns u₁ u₃ := by
  obtain ⟨_, rfl⟩ := h
  obtain ⟨warnings, rfl⟩ := h'
  exact ⟨warnings, rfl⟩

/-- A function that has a tree, or has failed. -/
structure Worked (m : Decompiler) (d : Dialect) (f : Function) (w : Work) : Prop where
  function : w.function = f
  index : w.result.index = f.header.index
  count : w.result.instructionCount = f.instructions.length
  source : w.result.source = none
  failed_iff : w.result.status = .failed ↔ w.tree = none
  tree : w.tree = (Structured.ofInstructions d m.options.structuring f.instructions
    (some f.codeLength)).value.toOption
  structured : ∀ s, w.tree = some s →
    w.result.error = f.error.map (·.diagnostic) ∧ w.result.status = m.statusOf s (begun f).status

theorem statusOf_ne_failed (m : Decompiler) (s : Structured) (f : Function) :
    m.statusOf s (begun f).status ≠ .failed := by
  unfold statusOf begun
  dsimp only
  split
  · nofun
  · split <;> nofun

/-- What it takes for a structured function to be fine. -/
theorem statusOf_eq_ok {s : Structured} {f : Function}
    (h : m.statusOf s (begun f).status = .ok) : f.error = none ∧
      Numeric.lt m.options.rawBlockLimit (.real s.rawRatio) = false ∧ s.rawTransfers = 0 := by
  unfold statusOf begun at h
  dsimp only at h
  cases herror : f.error with
  | some e => simp [herror] at h
  | none => simpa [herror] using h

/-- Structuring a decoded function is never out of calls on a stack without a bound. -/
theorem ne_exhausted (hd : d.Regular) {payload : List UInt8} {bounds : Bounds} {f : Function}
    (hf : f ∈ (Script.decode d payload bounds).functions) :
    (Structured.ofInstructions d m.options.structuring f.instructions
      (some f.codeLength)).value ≠ .error .exhausted :=
  fun h => absurd (Structured.reported_of_error hd hf h) Bool.false_ne_true

/-- **Functions are structured** or have failed, and the run goes on, if there are calls enough. -/
theorem does_structureFunction (hd : d.Regular) {payload : List UInt8} {bounds : Bounds}
    {f : Function} (hf : f ∈ (Script.decode d payload bounds).functions) :
    Run.Does (m.structureFunction stack d f) u
      (fun w u' => (Worked m d f w ∧ m.CanStructure stack d f) ∧ Warns u u') E
      (fun e => e = .exhausted ∧ ¬ m.CanStructure stack d f) := by
  unfold structureFunction
  refine Run.Does.bind (Run.does_unitName ?_)
  refine Run.Does.bind (Run.does_noted ?_)
  rcases Structured.ofInstructionsWithin_eq stack d m.options.structuring f.instructions
    (some f.codeLength) with hexhausted | heq
  · rw [hexhausted]
    exact Run.does_end ⟨rfl, fun h => h hexhausted⟩
  have hcan : m.CanStructure stack d f := by
    unfold CanStructure
    rw [heq]
    exact ne_exhausted hd hf
  rw [heq]
  cases hs : (Structured.ofInstructions d m.options.structuring f.instructions
    (some f.codeLength)).value with
  | error e =>
    obtain ⟨g, hg⟩ := Option.isSome_iff_exists.mp (Structured.reported_of_error hd hf hs)
    dsimp only
    rw [hg]
    refine Run.Does.bind (Run.does_note ?_)
    refine Run.does_pure ⟨⟨⟨rfl, rfl, rfl, rfl, ⟨fun _ => rfl, fun _ => rfl⟩, ?_, nofun⟩, hcan⟩,
      Warns.refl u⟩
    rw [hs]
    rfl
  | ok s =>
    have hworked (rest : FunctionResult) (hindex : rest.index = f.header.index)
        (hcount : rest.instructionCount = f.instructions.length)
        (hsource : rest.source = none) (herror : rest.error = f.error.map (·.diagnostic))
        (hstatus : rest.status = m.statusOf s (begun f).status) :
        Worked m d f { function := f, result := rest, tree := some s } := by
      refine ⟨rfl, hindex, hcount, hsource, ?_, ?_, ?_⟩
      · rw [hstatus]
        exact ⟨fun h => absurd h (statusOf_ne_failed m s f), nofun⟩
      · rw [hs]
        rfl
      · rintro _ ⟨⟩
        exact ⟨herror, hstatus⟩
    -- A warning about blocks out of reach, then a note about doubts; the rest does not depend on them.
    dsimp only
    split
    · refine Run.Does.bind (Run.does_change ?_)
      split
      · refine Run.Does.bind (Run.does_note ?_)
        exact Run.does_pure ⟨⟨hworked _ rfl rfl rfl rfl rfl, hcan⟩, _, rfl⟩
      · exact Run.does_pure ⟨⟨hworked _ rfl rfl rfl rfl rfl, hcan⟩, _, rfl⟩
    · split
      · refine Run.Does.bind (Run.does_note ?_)
        exact Run.does_pure ⟨⟨hworked _ rfl rfl rfl rfl rfl, hcan⟩, Warns.refl u⟩
      · exact Run.does_pure ⟨⟨hworked _ rfl rfl rfl rfl rfl, hcan⟩, Warns.refl u⟩

/-- The entry of a decoded function. -/
structure Enters (m : Decompiler) (d : Dialect) (f : Function) (e : FunctionResult) : Prop where
  index : e.index = f.header.index
  count : e.instructionCount = f.instructions.length
  failed_iff : e.status = .failed ↔ e.source = none
  recovered : e.status = .ok → Recovered m d f e

/-- **Functions are written** or have failed, and the run goes on, if there are calls enough. -/
theorem does_write {style : Source.Style} {w : Work} :
    Run.Does (write stack style w) u
      (fun written u' => (∀ f, Worked m d f w →
        Enters m d f written.2 ∧ m.CanWrite stack d style f) ∧ u = u') E
      (fun e => e = .exhausted ∧ ∀ f, Worked m d f w → ¬ m.CanWrite stack d style f) := by
  unfold write
  cases htree : w.tree with
  | none =>
    refine Run.does_pure ⟨fun f hw => ⟨?_, fun s hs => ?_⟩, rfl⟩
    · have hfailed : w.result.status = .failed := hw.failed_iff.mpr htree
      refine ⟨hw.index, hw.count, iff_of_true hfailed hw.source, fun hok => ?_⟩
      cases hfailed.symm.trans hok
    · have hnone := htree.symm.trans hw.tree
      rw [hs] at hnone
      cases hnone
  | some s =>
    -- The tree is the one that the function has, so its calls are those that writing it takes.
    have hsome {f : Function} (hw : Worked m d f w) :
        (Structured.ofInstructions d m.options.structuring f.instructions
          (some f.codeLength)).value = .ok s :=
      Outcome.toOption_eq_some.mp (hw.tree.symm.trans htree)
    dsimp only
    split
    · rename_i hover
      refine Run.does_end ⟨rfl, fun f hw hcan => ?_⟩
      obtain ⟨calls, hcalls, hlt⟩ := (Option.any_eq_true _ _).mp hover
      have hle := hcan s (hsome hw) calls hcalls
      rw [hw.function] at hlt
      exact absurd hle (Nat.not_le.mpr (of_decide_eq_true hlt))
    rename_i hover
    have hcan {f : Function} (hw : Worked m d f w) : m.CanWrite stack d style f := by
      rintro s' hs' calls hcalls
      cases (hsome hw).symm.trans hs'
      rw [← hw.function]
      refine Nat.not_lt.mp fun hlt => hover ?_
      exact (Option.any_eq_true _ _).mpr ⟨calls, hcalls, decide_eq_true hlt⟩
    split
    · refine Run.does_pure ⟨fun f hw => ⟨?_, hcan hw⟩, rfl⟩
      obtain ⟨herror, hstatus⟩ := hw.structured s htree
      refine ⟨hw.index, hw.count, iff_of_false (fun hfailed => ?_) nofun, fun hok => ?_⟩
      · cases (hw.failed_iff.mp hfailed).symm.trans htree
      · obtain ⟨hcomplete, hratio, hzero⟩ := statusOf_eq_ok (hstatus.symm.trans hok)
        refine ⟨?_, Option.isNone_iff_eq_none.mpr hcomplete, s, hsome hw, hratio, fun r hr =>
          Structured.fallthrough_of_rawTransfers (hsome hw) hzero hr⟩
        exact herror.trans (hcomplete ▸ rfl)
    · refine Run.Does.bind (Run.does_note ?_)
      refine Run.does_pure ⟨fun f hw => ⟨?_, hcan hw⟩, rfl⟩
      exact ⟨hw.index, hw.count, iff_of_true rfl hw.source, nofun⟩

/-! ## All functions -/

theorem getElem?_missing {s : Script} {k : Nat} {e : FunctionResult}
    (h : (missing s)[k]? = some e) :
    e.index = s.functions.length + k ∧ e.status = .failed ∧ e.source = none := by
  unfold missing at h
  split at h
  · cases h
  · rw [List.getElem?_map] at h
    obtain ⟨n, hn, rfl⟩ := Option.map_eq_some_iff.mp h
    obtain ⟨-, rfl⟩ := List.getElem?_eq_some_iff.mp hn
    rw [List.getElem_range]
    exact ⟨rfl, rfl, rfl⟩

/-- Functions that were not decoded are missing. -/
theorem length_missing (d : Dialect) (payload : List UInt8) :
    (Script.decode d payload).functions.length + (missing (Script.decode d payload)).length =
      Script.declaredCount d payload := by
  rw [← Script.functionCount_decode_eq d payload {}]
  unfold missing
  split
  · rename_i herror
    have hfault := Option.map_eq_none_iff.mp herror
    exact Script.length_functions_of_fault hfault
  · rw [List.length_map, List.length_range]
    exact Nat.add_sub_cancel' (Script.length_functions_le d payload)

/-- The entries of the decoded functions and of the missing ones account for all. -/
theorem accounts_of_enters {payload : List UInt8} {entries : List FunctionResult}
    (h : List.Forall₂ (Enters m d) (Script.decode d payload).functions entries)
    (hu : u.functions = entries ++ missing (Script.decode d payload)) : Accounts m d payload u := by
  have hlength := h.length_eq
  -- A place is one of a decoded function or of a missing one.
  have hplace {i : Nat} {e : FunctionResult} (hi : u.functions[i]? = some e) :
      (∃ f, (Script.decode d payload).functions[i]? = some f ∧ Enters m d f e) ∨
        (e.index = i ∧ e.status = .failed ∧ e.source = none) := by
    rw [hu] at hi
    rcases Nat.lt_or_ge i entries.length with hlt | hge
    · rw [List.getElem?_append_left hlt, List.getElem?_eq_getElem hlt] at hi
      cases hi
      refine .inl ⟨_, List.getElem?_eq_getElem (hlength ▸ hlt), ?_⟩
      exact (List.forall₂_iff_get.mp h).2 i (hlength ▸ hlt) hlt
    · rw [List.getElem?_append_right hge, ← hlength] at hi
      obtain ⟨hindex, hfailed, hsource⟩ := getElem?_missing hi
      refine .inr ⟨?_, hfailed, hsource⟩
      rw [hindex, Nat.add_sub_cancel' (hlength ▸ hge)]
  refine ⟨?_, fun i e hi => ?_, fun e he => ?_, fun i e hi hok => ?_⟩
  · rw [hu, List.length_append, ← hlength, length_missing]
  · rcases hplace hi with ⟨f, hf, hentry⟩ | ⟨hindex, -⟩
    · exact hentry.index.trans (Script.index_of_getElem? hf)
    · exact hindex
  · obtain ⟨i, hi⟩ := List.getElem?_of_mem he
    rcases hplace hi with ⟨f, -, hentry⟩ | ⟨-, hfailed, hsource⟩
    · exact hentry.failed_iff
    · exact iff_of_true hfailed hsource
  · rcases hplace hi with ⟨f, hf, hentry⟩ | ⟨-, hfailed, -⟩
    · exact ⟨f, hf, hentry.recovered hok⟩
    · cases hfailed.symm.trans hok

theorem does_structureAll (hd : d.Regular) {payload : List UInt8} {bounds : Bounds} :
    Run.Does ((Script.decode d payload bounds).functions.mapM (m.structureFunction stack d)) u
      (fun works u' => List.Forall₂ (fun f w => Worked m d f w ∧ m.CanStructure stack d f)
        (Script.decode d payload bounds).functions works ∧ Warns u u') E
      (fun e => e = .exhausted ∧
        ∃ f ∈ (Script.decode d payload bounds).functions, ¬ m.CanStructure stack d f) :=
  Run.Does.mapM (Warns.refl u) fun f hf _ hu =>
    (does_structureFunction hd hf).mono (fun _ _ h => ⟨h.1, hu.trans h.2⟩) (fun _ _ h => h)
      fun _ h => ⟨h.1, f, hf, h.2⟩

theorem does_writeAll {style : Source.Style} {works : List Work} :
    Run.Does (works.mapM (write stack style)) u
      (fun written u' => List.Forall₂ (fun w (x : String × FunctionResult) => ∀ f, Worked m d f w →
        Enters m d f x.2 ∧ m.CanWrite stack d style f) works written ∧ u = u') E
      (fun e => e = .exhausted ∧ ∃ w ∈ works, ∀ f, Worked m d f w → ¬ m.CanWrite stack d style f) :=
  Run.Does.mapM rfl fun w hw _ hu => hu ▸ does_write.mono (fun _ _ h => h) (fun _ _ h => h)
    fun _ h => ⟨h.1, w, hw, h.2⟩

/-- Functions that were all structured and written have all had calls enough. -/
theorem enters_of_worked {style : Source.Style} {functions : List Function} {works : List Work}
    {written : List (String × FunctionResult)}
    (h : List.Forall₂ (fun f w => Worked m d f w ∧ m.CanStructure stack d f) functions works)
    (h' : List.Forall₂ (fun w (x : String × FunctionResult) => ∀ f, Worked m d f w →
      Enters m d f x.2 ∧ m.CanWrite stack d style f) works written) :
    List.Forall₂ (Enters m d) functions (written.map (·.2)) ∧
      ∀ f ∈ functions, m.Fits stack d style f := by
  induction h generalizing written with
  | nil =>
    cases h'
    exact ⟨.nil, nofun⟩
  | cons hw _ ih =>
    cases h' with
    | cons hwritten hrest =>
      obtain ⟨henters, hfits⟩ := ih hrest
      obtain ⟨henter, hcan⟩ := hwritten _ hw.1
      exact ⟨.cons henter henters, List.forall_mem_cons.mpr ⟨⟨hw.2, hcan⟩, hfits⟩⟩

/-! ## Units -/

theorem does_checkpoint (hgo : ∀ c, m.cancelled c = false) {c : Checkpoint}
    {Q : Unit → UnitResult → Prop} (h : Q () u) : Run.Does (m.checkpoint c) u Q E X := by
  unfold checkpoint
  rw [hgo, if_neg Bool.false_ne_true]
  exact Run.does_pure h

theorem does_opened {bytes : List UInt8} {name : Option String} :
    Run.Does (opened (.blob bytes name)) u
      (fun c u' => Container.ofBytes bytes u.name = .ok c ∧ u' = u)
      (fun stop u' => ∃ e, Container.ofBytes bytes u.name = .error e ∧ stop = .container e ∧ u' = u)
      X := by
  unfold opened
  refine Run.Does.bind (Run.does_unitName ?_)
  cases Container.ofBytes bytes u.name with
  | ok c => exact Run.does_pure ⟨rfl, rfl⟩
  | error e => exact Run.does_stop ⟨e, rfl, rfl, rfl⟩

/-- A container was recovered: there is a text, and there are entries for the functions that were
decoded and behind them for those that were not. -/
structure Finished (m : Decompiler) (c : Container) (d : Dialect) (u : UnitResult) : Prop where
  cancelled : u.cancelled = false
  source : u.source.isSome
  version : u.version = some d.id
  entries : ∃ entries, List.Forall₂ (Enters m d) (Script.decode d c.payload).functions entries ∧
    u.functions = entries ++ missing (Script.decode d c.payload)

theorem Finished.accounts {c : Container} (h : Finished m c d u) : Accounts m d c.payload u := by
  obtain ⟨entries, henters, hu⟩ := h.entries
  exact accounts_of_enters henters hu

/-- **A container** is recovered if there is a dialect for it, and there are calls enough. -/
theorem does_recoverContainer (hregistered : ∀ d ∈ m.registry.dialects, d.Registered)
    (hgo : ∀ c, m.cancelled c = false) (c : Container) (hcancelled : u.cancelled = false) :
    Run.Does (m.recoverContainer stack c) u
      (fun _ u' => (∃ d, m.dialectOf c = .ok d ∧ Finished m c d u') ∧ m.Suffices stack c)
      (fun stop u' => (∃ e, stop = .version e) ∧ (∀ d, m.dialectOf c ≠ .ok d) ∧
        u'.version = u.version ∧ u'.functions = u.functions)
      (fun e => e = .exhausted ∧ ¬ m.Suffices stack c) := by
  unfold recoverContainer
  refine Run.Does.bind ((does_resolve c).imp ?_)
  rintro d u' ⟨hdialect, hgoes⟩
  have hregular := (hregistered d (mem_of_dialectOf hdialect)).regular
  refine Run.Does.bind (Run.does_change ?_)
  refine Run.Does.bind (does_checkpoint hgo ?_)
  refine Run.Does.bind (Run.does_notes ?_)
  refine Run.Does.bind (Run.does_unitName ?_)
  extract_lets count recover
  -- An error of the payload is kept in the result; recovery does not depend on it.
  have hrecover (u₁ : UnitResult) (hversion : u₁.version = some d.id)
      (hcancelled : u₁.cancelled = false) {E : Stop → UnitResult → Prop} :
      Run.Does (recover ()) u₁
        (fun _ u' => (∃ d, m.dialectOf c = .ok d ∧ Finished m c d u') ∧ m.Suffices stack c) E
        (fun e => e = .exhausted ∧ ¬ m.Suffices stack c) := by
    refine Run.Does.bind (does_checkpoint hgo ?_)
    refine Run.Does.bind ((does_structureAll hregular).mono ?_ (fun _ _ h => h) ?_)
    rotate_left
    · rintro e ⟨rfl, f, hf, hnot⟩
      exact ⟨rfl, fun hall => hnot (hall d hdialect f hf).structured⟩
    rintro works _ ⟨hworks, warnings, rfl⟩
    refine Run.Does.bind (does_checkpoint hgo ?_)
    refine Run.Does.bind ((does_writeAll (m := m) (d := d)).mono ?_ (fun _ _ h => h) ?_)
    rotate_left
    · rintro e ⟨rfl, w, hw, hnot⟩
      obtain ⟨f, hf, hworked, -⟩ := Outcome.exists_of_mem_right hworks hw
      exact ⟨rfl, fun hall => hnot f hworked (hall d hdialect f hf).written⟩
    rintro written _ ⟨hwritten, rfl⟩
    obtain ⟨henters, hfits⟩ := enters_of_worked hworks hwritten
    refine Run.Does.bind (Run.does_change ?_)
    refine Run.Does.bind (Run.does_change ?_)
    have hcount (status : FunctionStatus) {v : UnitResult} {Q : Nat → UnitResult → Prop}
        {E : Stop → UnitResult → Prop} {X : StructureFault → Prop} (h : ∀ n, Q n v) :
        Run.Does (count status) v Q E X :=
      fun _ => h _
    refine Run.Does.bind (hcount _ fun _ => ?_)
    refine Run.Does.bind (hcount _ fun _ => ?_)
    refine Run.Does.bind (hcount _ fun _ => Run.does_note ?_)
    refine ⟨⟨d, hdialect, hcancelled, rfl, hversion, _, henters, rfl⟩, fun d' hd' => ?_⟩
    cases hdialect.symm.trans hd'
    exact hfits
  cases (Script.decode d c.payload).error? with
  | none => exact hrecover { u' with version := some d.id } rfl (hgoes.trans hcancelled)
  | some e =>
    refine Run.Does.bind (Run.does_note ?_)
    refine Run.Does.bind (Run.does_change ?_)
    exact hrecover { u' with version := some d.id, error := some e.diagnostic } rfl
      (hgoes.trans hcancelled)

/-- A stack without a bound suffices for every unit. -/
theorem suffices_none (hregistered : ∀ d ∈ m.registry.dialects, d.Registered) (c : Container) :
    m.Suffices none c :=
  fun _ hd _ hf =>
    ⟨ne_exhausted (hregistered _ (mem_of_dialectOf hd)).regular hf, fun _ _ _ hcalls => nomatch hcalls⟩

/-- The stages ended: the dialect of the container is known, and there is a text. -/
structure Ended (m : Decompiler) (bytes : List UInt8) (name : String) (u : UnitResult) : Prop where
  cancelled : u.cancelled = false
  source : u.source.isSome
  accounts : ∃ c d, Container.ofBytes bytes name = .ok c ∧ m.dialectOf c = .ok d ∧
    u.version = some d.id ∧ Accounts m d c.payload u

/-- The stages stopped before there was an entry, for want of a container or of a dialect. -/
structure Stopped (m : Decompiler) (bytes : List UInt8) (name : String) (stop : Stop)
    (u : UnitResult) : Prop where
  version : u.version = none
  functions : u.functions = []
  uncancelled : ∀ c, stop ≠ .cancelled c
  dialect : ∀ c d, Container.ofBytes bytes name = .ok c → m.dialectOf c ≠ .ok d

/-- **The stages of a run** end, or they stop for want of a container or of a dialect, if there are
calls enough. -/
theorem does_stages (hregistered : ∀ d ∈ m.registry.dialects, d.Registered)
    (hgo : ∀ c, m.cancelled c = false) (bytes : List UInt8) (name : Option String)
    (hversion : u.version = none) (hfunctions : u.functions = []) (hcancelled : u.cancelled = false) :
    Run.Does (m.stages stack (.blob bytes name)) u
      (fun _ u' => Ended m bytes u.name u' ∧
        ∀ c, Container.ofBytes bytes u.name = .ok c → m.Suffices stack c)
      (fun stop u' => Stopped m bytes u.name stop u' ∧
        ∀ c, Container.ofBytes bytes u.name = .ok c → m.Suffices stack c)
      (fun e => e = .exhausted ∧
        ∃ c, Container.ofBytes bytes u.name = .ok c ∧ ¬ m.Suffices stack c) := by
  unfold stages
  refine Run.Does.bind (does_checkpoint hgo ?_)
  refine Run.Does.bind (does_opened.mono ?_ ?_ fun _ h => h)
  rotate_left
  · rintro _ u ⟨e, hbytes, rfl, rfl⟩
    have hnone (c : Container) : Container.ofBytes bytes u.name ≠ .ok c := by
      rw [hbytes]
      exact nofun
    exact ⟨⟨hversion, hfunctions, nofun, fun c d hc => absurd hc (hnone c)⟩,
      fun c hc => absurd hc (hnone c)⟩
  rintro c u ⟨hbytes, rfl⟩
  have hunique {P : Container → Prop} (h : P c) (c' : Container)
      (hc' : Container.ofBytes bytes u.name = .ok c') : P c' := by
    cases hbytes.symm.trans hc'
    exact h
  refine (does_recoverContainer hregistered hgo c hcancelled).mono ?_ ?_ ?_
  · rintro _ u' ⟨⟨d, hdialect, hfinished⟩, hsuffices⟩
    exact ⟨⟨hfinished.cancelled, hfinished.source, c, d, hbytes, hdialect, hfinished.version,
      hfinished.accounts⟩, hunique hsuffices⟩
  · rintro _ u' ⟨⟨e, rfl⟩, hnone, hsame, hfunctions'⟩
    refine ⟨⟨hsame.trans hversion, hfunctions'.trans hfunctions, nofun, fun c' d hc' => ?_⟩,
      hunique fun d hd => absurd hd (hnone d)⟩
    exact hunique (P := fun c => m.dialectOf c ≠ .ok d) (hnone d) c' hc'
  · rintro _ ⟨rfl, hnot⟩
    exact ⟨rfl, c, hbytes, hnot⟩

/-- The status of a result that is not cancelled and has a text, or nothing else. -/
theorem status_eq_ok_iff (hcancelled : u.cancelled = false)
    (hsource : u.source.isSome ∨ u.error ≠ none) :
    u.status = .ok ↔ u.error = none ∧ ∀ e ∈ u.functions, e.status = .ok := by
  have hok : u.ok = true ↔ u.error = none ∧ ∀ e ∈ u.functions, e.status = .ok := by
    simp [UnitResult.ok, FunctionResult.ok, hcancelled]
  unfold UnitResult.status
  rw [hcancelled, if_neg Bool.false_ne_true]
  split
  · rename_i hnone
    have herror : u.error ≠ none := hsource.resolve_left (by simpa using hnone)
    exact iff_of_false nofun fun h => herror h.1
  · split
    · rename_i h
      exact iff_of_true rfl (hok.mp h)
    · rename_i h
      exact iff_of_false nofun (mt hok.mpr h)

/-- Stages that ended make a result that says what became of the bytes. -/
theorem Ended.settles {bytes : List UInt8} {name : String} (h : Ended m bytes name u) :
    Settles m bytes name u := by
  obtain ⟨c, d, hbytes, hdialect, hversion, haccounts⟩ := h.accounts
  refine ⟨fun e he => ?_, fun c' hc hnone => ?_, fun c' d' hc hd => ?_,
    status_eq_ok_iff h.cancelled (.inl h.source)⟩
  · cases hbytes.symm.trans he
  · cases hbytes.symm.trans hc
    exact absurd hdialect (hnone d)
  · cases hbytes.symm.trans hc
    cases hdialect.symm.trans hd
    exact ⟨hversion, h.source, haccounts⟩

/-- So do stages that stopped, once the reason is kept in the result. -/
theorem Stopped.settles {bytes : List UInt8} {name : String} {stop : Stop} {cancelled : Bool}
    (h : Stopped m bytes name stop u) (hcancelled : cancelled = true → ∃ c, stop = .cancelled c) :
    Settles m bytes name { u with source := none, error := some stop.diagnostic, cancelled } := by
  refine ⟨fun e _ => ⟨h.version, rfl, h.functions⟩, fun c _ _ => ⟨h.version, rfl, h.functions⟩,
    fun c d hc hd => absurd hd (h.dialect c d hc), status_eq_ok_iff ?_ (.inr nofun)⟩
  refine Bool.eq_false_iff.mpr fun htrue => ?_
  obtain ⟨c, hc⟩ := hcancelled htrue
  exact h.uncancelled c hc

/-- **What becomes of a byte string.** A run that is not cancelled, with registered dialects, ends with
a result for whatever bytes it is given and whatever its options, or it runs out of calls. All functions
that the payload declares are accounted for if there is a dialect for it, and none is there otherwise. A
run is out of calls just when they are bounded and some function that it decodes needs more of them. -/
theorem runOn_settles (hregistered : ∀ d ∈ m.registry.dialects, d.Registered)
    (hgo : ∀ c, m.cancelled c = false) (stack : Option Nat) (bytes : List UInt8)
    (name : Option String) :
    ((∃ u, (m.runOn stack (.blob bytes name)).value = .ok u ∧
        Settles m bytes (UnitInput.blob bytes name).name u) ∨
      (m.runOn stack (.blob bytes name)).value = .error .exhausted) ∧
    ((m.runOn stack (.blob bytes name)).value = .error .exhausted ↔
      stack.isSome ∧ ∃ c, Container.ofBytes bytes (UnitInput.blob bytes name).name = .ok c ∧
        ¬ m.Suffices stack c) := by
  have hdoes : Run.Does (m.stages stack (.blob bytes name))
      { name := (UnitInput.blob bytes name).name } _ _ _ :=
    does_stages hregistered hgo bytes name rfl rfl rfl
  have hstages := hdoes []
  have hrun : (m.stages stack (.blob bytes name)).run
      ({ name := (UnitInput.blob bytes name).name }, []) =
    (m.stages stack (.blob bytes name)).run.run
      ({ name := (UnitInput.blob bytes name).name }, []) := rfl
  unfold runOn
  rw [hrun]
  split at hstages
  · rename_i u notes hended
    rw [hended]
    refine ⟨.inl ⟨u, rfl, hstages.1.settles⟩, iff_of_false nofun ?_⟩
    rintro ⟨-, c, hc, hnot⟩
    exact hnot (hstages.2 c hc)
  · rename_i stop u notes hstopped
    rw [hstopped]
    refine ⟨.inl ⟨_, rfl, hstages.1.settles fun h => ?_⟩, iff_of_false nofun ?_⟩
    · cases stop with
      | cancelled c => exact ⟨c, rfl⟩
      | version e => cases h
      | container e => cases h
    · rintro ⟨-, c, hc, hnot⟩
      exact hnot (hstages.2 c hc)
  · rename_i e u notes hlost
    rw [hlost]
    obtain ⟨rfl, c, hc, hnot⟩ := hstages
    refine ⟨.inr rfl, iff_of_true rfl ⟨?_, c, hc, hnot⟩⟩
    cases stack with
    | none => exact absurd (suffices_none hregistered c) hnot
    | some calls => rfl

/-- The id of the oldest dialect, as a tag. -/
def oldestTag : List UInt8 :=
  [48, 98, 56, 48, 54, 101, 101]

/-- A unit of the oldest dialect: a function with an iteration whose only block advances it. -/
def loneAdvanceUnit : List UInt8 :=
  Container.magic ++ [1, 0, 0, 0, 7] ++ oldestTag ++ Structured.loneAdvance

/-- A run with the standard registry and the standard options. -/
def standardRun : Decompiler where
  registry := Registry.standard
  options := {}

theorem registered_standardRun : ∀ d ∈ standardRun.registry.dialects, d.Registered :=
  fun _ hd => Dialect.registered_of_mem hd

/-- A unit with the tag of the oldest dialect is one of it. -/
theorem dialectOf_oldestTag (payload : List UInt8) :
    standardRun.dialectOf ⟨oldestTag, payload, some 1, Container.anonymous⟩ = .ok Registry.oldest := by
  have hids : Registry.standard.ids.Nodup :=
    Registry.nodup_ids (Registry.eq_ok_of_mem_orEmpty Registry.oldest_mem)
  have htagged : Detection.Tagged ⟨oldestTag, payload, some 1, Container.anonymous⟩
      Registry.oldest := by
    show (Key.bytes oldestTag).id = .ok Registry.oldest.id
    decide
  exact Detection.require_eq_ok.mpr ((Detection.Decided.of_container hids _ _).version_iff _ |>.mpr
    (.inl ⟨Registry.oldest_mem, htagged⟩))

/-- A thousand calls are enough for a unit whose functions all need fewer. -/
theorem runOn_settles_loneAdvance :
    (∀ d ∈ standardRun.registry.dialects, d.Registered) ∧
      (∀ c, standardRun.cancelled c = false) ∧
      ∃ u, (standardRun.runOn (some 1000) (.blob loneAdvanceUnit none)).value = .ok u ∧
        u.version = some "0b806ee" ∧ u.functions.length = 1 := by
  have hgo (c : Checkpoint) : standardRun.cancelled c = false := rfl
  obtain ⟨hends, hexhausted⟩ := runOn_settles registered_standardRun hgo (some 1000)
    loneAdvanceUnit none
  have hbytes : Container.ofBytes loneAdvanceUnit Container.anonymous =
      .ok ⟨oldestTag, Structured.loneAdvance, some 1, Container.anonymous⟩ :=
    rfl
  have hdialect := dialectOf_oldestTag Structured.loneAdvance
  have hsuffices : standardRun.Suffices (some 1000)
      ⟨oldestTag, Structured.loneAdvance, some 1, Container.anonymous⟩ := by
    intro d hd
    cases hdialect.symm.trans hd
    decide +kernel
  rcases hends with ⟨u, hu, hsettles⟩ | hlost
  · obtain ⟨hversion, -, haccounts⟩ := hsettles.resolved _ _ hbytes hdialect
    exact ⟨registered_standardRun, hgo, u, hu, hversion,
      haccounts.length.trans (by decide +kernel)⟩
  · obtain ⟨-, c, hc, hnot⟩ := hexhausted.mp hlost
    cases hbytes.symm.trans hc
    exact absurd hsuffices hnot

end Decompiler

end Unscript
