import Unscript.Proofs.Registry.Entries
import Mathlib.Data.Finset.Lattice.Lemmas
import Mathlib.Data.Finset.SDiff
import Mathlib.Data.Finset.Dedup
import Mathlib.Data.List.InsertIdx

/-!
# What the changes along a way make

The changes of an entry are checked while they are made. When all checks pass, the table of builtin
functions and the set of features are what plain list and set operations give, one entry after
another from the root on.

* `Registry.BuiltinChange.applied`, `Registry.FeatureChange.applied`: the changes without checks.
* `Registry.Inherits`: a state is that of the root of a way with the changes along the way.

Results:
* `Registry.changeBuiltins_ok`, `Registry.changeFeatures_ok`: changes that pass their checks.
* `Registry.inherits_of_descends`: what resolving along a way gives.
-/

namespace Unscript.Registry

/-! ## Changes without checks -/

/-- The table with one function renamed where it stands. -/
def afterRenaming (table : List String) (r : String × String) : List String :=
  table.set (table.idxOf r.1) r.2

/-- The table with a function inserted behind another or at the end. -/
def afterInsertion (table : List String) (i : Insertion) : List String :=
  match i.name, i.after with
  | none, _ => table
  | some name, none => table ++ [name]
  | some name, some after => table.insertIdx (table.idxOf after + 1) name

/-- The table after removals, renamings and insertions, in this order. -/
def BuiltinChange.applied (c : BuiltinChange) (table : List String) : List String :=
  c.insert.foldl afterInsertion (c.rename.foldl afterRenaming (c.remove.foldl List.erase table))

/-- The set with features added and then others removed. -/
def FeatureChange.applied (c : FeatureChange) (set : Finset String) : Finset String :=
  (set ∪ c.add.toFinset) \ c.remove.toFinset

theorem renameFirst_eq_set (old new : String) (table : List String) :
    renameFirst old new table = table.set (table.idxOf old) new := by
  induction table with
  | nil => rfl
  | cons x xs ih =>
    rw [renameFirst]
    split
    · rename_i heq
      subst heq
      rw [List.idxOf_cons_self, List.set_cons_zero]
    · rename_i hne
      rw [List.idxOf_cons_ne _ hne, List.set_cons_succ, ih]

theorem insertAfter_eq_insertIdx {after : String} (name : String) {table : List String}
    (h : after ∈ table) : insertAfter after name table = table.insertIdx (table.idxOf after + 1) name := by
  induction table with
  | nil => cases h
  | cons x xs ih =>
    rw [insertAfter]
    split
    · rename_i heq
      subst heq
      rw [List.idxOf_cons_self, List.insertIdx_succ_cons, List.insertIdx_zero]
    · rename_i hne
      rw [List.idxOf_cons_ne _ hne, List.insertIdx_succ_cons,
        ih ((List.mem_cons.mp h).resolve_left (Ne.symm hne))]

theorem removeBuiltin_ok {id name : String} {table table' : List String}
    (h : removeBuiltin id table name = .ok table') : table' = table.erase name := by
  unfold removeBuiltin at h
  split at h <;> cases h
  rfl

theorem renameBuiltin_ok {id : String} {table table' : List String} {r : String × String}
    (h : renameBuiltin id table r = .ok table') : r.1 ∈ table ∧ table' = afterRenaming table r := by
  unfold renameBuiltin at h
  split at h <;> cases h
  exact ⟨‹_›, renameFirst_eq_set _ _ _⟩

/-- A function that is inserted is new, and the one it is inserted behind is there. -/
theorem insertBuiltin_ok {id : String} {table table' : List String} {i : Insertion}
    (h : insertBuiltin id table i = .ok table') :
    (∃ name, i.name = some name ∧ name ∉ table) ∧ (∀ after ∈ i.after, after ∈ table) ∧
      table' = afterInsertion table i := by
  unfold insertBuiltin at h
  unfold afterInsertion
  split at h
  · cases h
  · rename_i name hname
    rw [hname]
    split at h
    · cases h
    · rename_i hnew
      split at h
      · rename_i hafter
        cases h
        rw [hafter]
        exact ⟨⟨name, rfl, hnew⟩, by simp, rfl⟩
      · rename_i after hafter
        rw [hafter]
        split at h <;> cases h
        exact ⟨⟨name, rfl, hnew⟩, by simpa, insertAfter_eq_insertIdx _ ‹_›⟩

/-- **Builtin functions.** A change that passes its checks removes, renames and inserts. -/
theorem changeBuiltins_ok {id : String} {table table' : List String} {c : BuiltinChange}
    (h : changeBuiltins id table c = .ok table') : table' = c.applied table := by
  obtain ⟨removed, hremove, h⟩ := Outcome.bind_eq_ok.mp h
  obtain ⟨named, hrename, hinsert⟩ := Outcome.bind_eq_ok.mp h
  rw [BuiltinChange.applied, ← Outcome.eq_foldl_of_foldlM hremove removeBuiltin_ok,
    ← Outcome.eq_foldl_of_foldlM hrename fun h => (renameBuiltin_ok h).2]
  exact Outcome.eq_foldl_of_foldlM hinsert fun h => (insertBuiltin_ok h).2.2

theorem toFinset_addFeature (set : List String) (feature : String) :
    (addFeature set feature).toFinset = insert feature set.toFinset := by
  unfold addFeature
  split
  · rename_i h
    rw [Finset.insert_eq_of_mem (List.mem_toFinset.mpr h)]
  · ext
    simp

theorem nodup_addFeature {set : List String} (h : set.Nodup) (feature : String) :
    (addFeature set feature).Nodup := by
  unfold addFeature
  split
  · exact h
  · rename_i hnew
    exact h.append (List.nodup_singleton _) (by simpa using hnew)

theorem toFinset_addFeatures (set added : List String) :
    (added.foldl addFeature set).toFinset = set.toFinset ∪ added.toFinset := by
  induction added generalizing set with
  | nil => simp
  | cons feature added ih =>
    rw [List.foldl_cons, ih, toFinset_addFeature, List.toFinset_cons, Finset.insert_union_comm]

theorem nodup_addFeatures {set : List String} (h : set.Nodup) (added : List String) :
    (added.foldl addFeature set).Nodup := by
  induction added generalizing set with
  | nil => exact h
  | cons feature added ih => exact ih (nodup_addFeature h feature)

/-- **Features.** A change that passes its checks adds and removes. -/
theorem changeFeatures_ok {id : String} {known set set' : List String} {c : FeatureChange}
    (h : changeFeatures id known set c = .ok set') :
    set'.toFinset = c.applied set.toFinset ∧ (set.Nodup → set'.Nodup) := by
  unfold changeFeatures at h
  split at h
  · cases h
  · cases h
    constructor
    · rw [FeatureChange.applied, ← toFinset_addFeatures]
      ext feature
      simp
    · exact fun hset => (nodup_addFeatures hset _).filter _

/-! ## Changes along a way -/

/-- A state is that of the root of a way with the changes along the way: the builtin functions are
those of the era of the root, changed, and the era is the last one that is named. -/
structure Inherits (eras : List EraEntry) (way : List Named) (s : State) : Prop where
  era : (way.filterMap (·.2.era)).getLast? = some s.era
  builtins : ∃ root, (way.head?.bind (·.2.era)).bind (eraNamed? eras) = some root ∧
    s.builtins = way.foldl (fun table named => named.2.builtins.applied table) root.builtins
  features : s.features.toFinset = way.foldl (fun set named => named.2.features.applied set) ∅
  nodup : s.features.Nodup

variable {eras : List EraEntry} {known : List String} {entries way : List Named} {id : String}
  {named : Named} {s : State}

/-- What the changes of one entry make of what it inherits. -/
theorem changed_ok {o : Option State} (h : changed eras known o named = .ok s) :
    ∃ s₀, inherited eras named.1 named.2 o = .ok s₀ ∧ s.era = s₀.era ∧
      s.builtins = named.2.builtins.applied s₀.builtins ∧
      s.features.toFinset = named.2.features.applied s₀.features.toFinset ∧
      (s₀.features.Nodup → s.features.Nodup) := by
  obtain ⟨s₀, hs₀, h⟩ := Outcome.bind_eq_ok.mp h
  obtain ⟨builtins, hbuiltins, h⟩ := Outcome.bind_eq_ok.mp h
  obtain ⟨features, hfeatures, h⟩ := Outcome.bind_eq_ok.mp h
  cases h
  obtain ⟨hset, hnodup⟩ := changeFeatures_ok hfeatures
  exact ⟨s₀, hs₀, rfl, changeBuiltins_ok hbuiltins, hset, hnodup⟩

/-- An entry without a base starts from its era. -/
theorem inherited_none_ok {e : Entry} (h : inherited eras id e none = .ok s) :
    ∃ era root, e.era = some era ∧ eraNamed? eras era = some root ∧ s = ⟨era, root.builtins, []⟩ := by
  obtain ⟨era, hera, h⟩ := Outcome.bind_eq_ok.mp h
  split at h
  · cases h
  · rename_i root hroot
    cases h
    exact ⟨era, root, require_eq_ok.mp hera, hroot, rfl⟩

/-- An entry with a base starts from its state, under its own era if it names one. -/
theorem inherited_some_ok {e : Entry} {b : State} (h : inherited eras id e (some b) = .ok s) :
    s = { b with era := e.era.getD b.era } := by
  unfold inherited at h
  simp only at h
  split at h <;> cases h
  rfl

theorem inherits_root (h : changed eras known none named = .ok s) : Inherits eras [named] s := by
  obtain ⟨s₀, hs₀, hera, hbuiltins, hfeatures, hnodup⟩ := changed_ok h
  obtain ⟨era, root, hnamed, hroot, rfl⟩ := inherited_none_ok hs₀
  refine ⟨?_, ⟨root, ?_, hbuiltins⟩, by simpa using hfeatures, hnodup List.nodup_nil⟩
  · simp [hnamed, hera]
  · rw [List.head?_cons, Option.bind_some, hnamed, Option.bind_some, hroot]

theorem Inherits.append {b : State} (hb : Inherits eras way b)
    (h : changed eras known (some b) named = .ok s) : Inherits eras (way ++ [named]) s := by
  obtain ⟨s₀, hs₀, hera, hbuiltins, hfeatures, hnodup⟩ := changed_ok h
  obtain rfl := inherited_some_ok hs₀
  obtain ⟨root, hroot, htable⟩ := hb.builtins
  refine ⟨?_, ⟨root, ?_, ?_⟩, ?_, hnodup hb.nodup⟩
  · rw [List.filterMap_append, List.getLast?_append, hb.era, hera]
    cases hn : named.2.era <;> simp [hn]
  · rwa [List.head?_append_of_ne_nil]
    rintro rfl
    cases hroot
  · rw [List.foldl_append, ← htable]
    exact hbuiltins
  · rw [List.foldl_append, ← hb.features]
    exact hfeatures

/-- **What a way leads to** is what plain changes along it make. -/
theorem inherits_of_descends (hway : Descends entries id way)
    (h : way.foldlM (step eras known) none = .ok (some s)) : Inherits eras way s := by
  induction hway generalizing s with
  | root hmem hbase =>
    obtain ⟨o, ho, h⟩ := Outcome.bind_eq_ok.mp h
    cases h
    obtain ⟨_, hs, ⟨⟩⟩ := step_eq_ok.mp ho
    exact inherits_root hs
  | based hmem hbase hkey hway ih =>
    rw [List.foldlM_append] at h
    obtain ⟨o, hfold, h⟩ := Outcome.bind_eq_ok.mp h
    obtain ⟨o', ho, h⟩ := Outcome.bind_eq_ok.mp h
    cases h
    obtain ⟨_, hs, ⟨⟩⟩ := step_eq_ok.mp ho
    obtain ⟨b, rfl⟩ := exists_state hway hfold
    exact (ih hfold).append hs

end Unscript.Registry
