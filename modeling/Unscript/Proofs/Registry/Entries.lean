import Unscript.Proofs.Registry.Descent

/-!
# Resolving the entries of registry data

Entries are resolved one after another, each with the states found before. That this succeeds, and
with which dialects, does not depend on their order: an entry becomes the dialect of the state that
its way from a root gives it.

* `Registry.Names`: an entry with the id that its commit spells.
* `Registry.Frame`: what the entries are resolved with.
* `Registry.Resolves`: the dialect of an entry.

Results:
* `Registry.nameEntries_eq_ok`: entries get their ids if no two spell the same one.
* `Registry.resolveEntries_eq_ok`: the dialects of entries, whatever was found before.
* `Registry.resolveAll_eq_ok`: the dialects of registry data.
-/

namespace Unscript.Registry

variable {eras : List EraEntry} {known : List String} {entries rest named out : List Named}
  {es : List Entry} {found : Found} {build : Named → State → Resolved Dialect} {ds : List Dialect}

/-- What a field that has to be there holds. -/
theorem require_eq_ok {α : Type} {context key : String} {o : Option α} {a : α} :
    require context key o = .ok a ↔ o = some a := by
  cases o <;> simp [require]

/-! ## Ids -/

/-- An entry with the id that its commit spells. -/
def Names (e : Entry) (named : Named) : Prop :=
  named.2 = e ∧ ∃ key, e.commit = some key ∧ idOf key = .ok named.1

theorem nameEntries_eq_ok_of_nodup (hnamed : (named.map (·.1)).Nodup) :
    nameEntries named es = .ok out ↔
      ∃ new, out = named.reverse ++ new ∧ List.Forall₂ Names es new ∧ (out.map (·.1)).Nodup := by
  induction es generalizing named with
  | nil =>
    simp only [nameEntries, Except.ok.injEq, List.forall₂_nil_left_iff]
    constructor
    · rintro rfl
      exact ⟨[], (List.append_nil _).symm, rfl, by rwa [List.map_reverse, List.nodup_reverse]⟩
    · rintro ⟨new, rfl, rfl, -⟩
      rw [List.append_nil]
  | cons e es ih =>
    constructor
    · intro h
      obtain ⟨commit, hcommit, h⟩ := Outcome.bind_eq_ok.mp h
      obtain ⟨id, hid, h⟩ := Outcome.bind_eq_ok.mp h
      split at h
      · cases h
      · rename_i hnew
        have hnodup : (((id, e) :: named).map (·.1)).Nodup := by
          refine List.nodup_cons.mpr ⟨fun hmem => hnew ?_, hnamed⟩
          obtain ⟨n, hn, rfl⟩ := List.mem_map.mp hmem
          exact List.any_eq_true.mpr ⟨n, hn, beq_self_eq_true _⟩
        obtain ⟨new, rfl, hes, hout⟩ := (ih hnodup).mp h
        exact ⟨(id, e) :: new, by simp,
          .cons ⟨rfl, commit, require_eq_ok.mp hcommit, hid⟩ hes, hout⟩
    · rintro ⟨new, rfl, hes, hout⟩
      obtain ⟨⟨id, e⟩, new, ⟨rfl, commit, hcommit, hid⟩, hrest, rfl⟩ :=
        List.forall₂_cons_left_iff.mp hes
      refine Outcome.bind_eq_ok.mpr ⟨commit, require_eq_ok.mpr hcommit,
        Outcome.bind_eq_ok.mpr ⟨id, hid, ?_⟩⟩
      have hnew : id ∉ named.map (·.1) := by
        rw [List.map_append, List.map_reverse, List.nodup_append] at hout
        exact fun hmem => hout.2.2 _ (List.mem_reverse.mpr hmem) _ List.mem_cons_self rfl
      rw [if_neg]
      · have hnodup : (((id, e) :: named).map (·.1)).Nodup := List.nodup_cons.mpr ⟨hnew, hnamed⟩
        exact (ih hnodup).mpr ⟨new, by simp, hrest, hout⟩
      · rw [List.any_eq_true]
        rintro ⟨n, hn, heq⟩
        exact hnew (List.mem_map.mpr ⟨n, hn, beq_iff_eq.mp heq⟩)

/-- **Ids.** Entries get the ids that their commits spell, if no two spell the same. -/
theorem nameEntries_eq_ok :
    nameEntries [] es = .ok out ↔ List.Forall₂ Names es out ∧ (out.map (·.1)).Nodup := by
  rw [nameEntries_eq_ok_of_nodup (show (([] : List Named).map (·.1)).Nodup from List.nodup_nil)]
  constructor
  · rintro ⟨new, rfl, h⟩
    exact h
  · exact fun h => ⟨out, rfl, h⟩

/-! ## Dialects -/

/-- The dialect that is built for an entry from its state. -/
def Resolves (eras : List EraEntry) (known : List String) (entries : List Named)
    (build : Named → State → Resolved Dialect) (named : Named) (d : Dialect) : Prop :=
  ∃ s, HasState eras known entries named.1 s ∧ build named s = .ok d

/-- **The dialects of entries** are those of their states, whatever was found before. -/
theorem resolveEntries_eq_ok (hids : (entries.map (·.1)).Nodup)
    (hfound : Holds eras known entries found) (hrest : rest ⊆ entries) :
    resolveEntries eras known entries build found rest = .ok ds ↔
      List.Forall₂ (Resolves eras known entries build) rest ds := by
  induction rest generalizing found ds with
  | nil => simp [resolveEntries, List.forall₂_nil_left_iff, eq_comm]
  | cons named rest ih =>
    obtain ⟨hnamed, hrest⟩ := List.cons_subset.mp hrest
    rw [List.forall₂_cons_left_iff]
    constructor
    · intro h
      obtain ⟨⟨s, found'⟩, hs, h⟩ := Outcome.bind_eq_ok.mp h
      obtain ⟨d, hd, h⟩ := Outcome.bind_eq_ok.mp h
      obtain ⟨ds', hds, h⟩ := Outcome.bind_eq_ok.mp h
      cases h
      obtain ⟨hstate, hfound'⟩ := resolveState_ok (List.Subset.refl _) hfound hs
      exact ⟨d, ds', ⟨s, hstate, hd⟩, (ih hfound' hrest).mp hds, rfl⟩
    · rintro ⟨d, ds, ⟨s, hstate, hd⟩, hds, rfl⟩
      obtain ⟨way, hway, hfold⟩ := hstate
      obtain ⟨found', hs⟩ := exists_resolveState hids hway hfold (List.Subset.refl _)
        (fun _ hn _ => hn) (fun _ _ => List.not_mem_nil) hfound
      obtain ⟨-, hfound'⟩ := resolveState_ok (List.Subset.refl _) hfound hs
      exact Outcome.bind_eq_ok.mpr ⟨(s, found'), hs, Outcome.bind_eq_ok.mpr ⟨d, hd,
        Outcome.bind_eq_ok.mpr ⟨ds, (ih hfound' hrest).mpr hds, rfl⟩⟩⟩

/-- A dialect is built with the encoding of the first era of the name. -/
theorem dialectIn_eq_ok {gates : List (String × String)} {encodings : List Encoding} {n : Named}
    {s : State} {d : Dialect} : dialectIn gates encodings n s = .ok d ↔
      ∃ enc, encodings.find? (·.era.name == s.era) = some enc ∧ dialect gates n s enc = .ok d := by
  unfold dialectIn
  cases encodings.find? (·.era.name == s.era) <;> simp

/-- What the entries of registry data are resolved with. -/
structure Frame (src : Source) (ops : List Operation) (known : List String) (eras : List EraEntry)
    (encodings : List Encoding) : Prop where
  ofOperations : ∃ es, src.operations = some es ∧ es.mapM operation = .ok ops
  ofFeatures : src.features = some known
  ofGates : src.gates.forM (checkGate ops known) = .ok ()
  ofEras : src.eras = some eras
  ofEncodings : eras.mapM (encoding ops) = .ok encodings

/-- **The dialects of registry data** are those of its entries, in order. -/
theorem resolveAll_eq_ok {src : Source} : resolveAll src = .ok ds ↔
    ∃ ops known eras encodings es entries, Frame src ops known eras encodings ∧
      src.entries = some es ∧ nameEntries [] es = .ok entries ∧
      List.Forall₂ (Resolves eras known entries (dialectIn src.gates encodings)) entries ds := by
  constructor
  · intro h
    obtain ⟨operations, hoperations, h⟩ := Outcome.bind_eq_ok.mp h
    obtain ⟨ops, hops, h⟩ := Outcome.bind_eq_ok.mp h
    obtain ⟨known, hknown, h⟩ := Outcome.bind_eq_ok.mp h
    obtain ⟨_, hgates, h⟩ := Outcome.bind_eq_ok.mp h
    obtain ⟨eras, heras, h⟩ := Outcome.bind_eq_ok.mp h
    obtain ⟨es, hes, h⟩ := Outcome.bind_eq_ok.mp h
    obtain ⟨entries, hentries, h⟩ := Outcome.bind_eq_ok.mp h
    obtain ⟨encodings, hencodings, h⟩ := Outcome.bind_eq_ok.mp h
    have hids := (nameEntries_eq_ok.mp hentries).2
    exact ⟨ops, known, eras, encodings, es, entries,
      ⟨⟨operations, require_eq_ok.mp hoperations, hops⟩, require_eq_ok.mp hknown, hgates,
        require_eq_ok.mp heras, hencodings⟩, require_eq_ok.mp hes, hentries,
      (resolveEntries_eq_ok hids Holds.nil (List.Subset.refl _)).mp h⟩
  · rintro ⟨ops, known, eras, encodings, es, entries, hframe, hes, hentries, hds⟩
    obtain ⟨operations, hoperations, hops⟩ := hframe.ofOperations
    have hids := (nameEntries_eq_ok.mp hentries).2
    simp only [resolveAll, hoperations, hframe.ofFeatures, hframe.ofEras, hes, require]
    exact Outcome.bind_eq_ok.mpr ⟨_, rfl, Outcome.bind_eq_ok.mpr ⟨ops, hops,
      Outcome.bind_eq_ok.mpr ⟨_, rfl, Outcome.bind_eq_ok.mpr ⟨_, hframe.ofGates,
      Outcome.bind_eq_ok.mpr ⟨_, rfl, Outcome.bind_eq_ok.mpr ⟨_, rfl,
      Outcome.bind_eq_ok.mpr ⟨entries, hentries, Outcome.bind_eq_ok.mpr ⟨encodings,
      hframe.ofEncodings, (resolveEntries_eq_ok hids Holds.nil (List.Subset.refl _)).mpr hds⟩⟩⟩⟩⟩⟩⟩⟩

end Unscript.Registry
