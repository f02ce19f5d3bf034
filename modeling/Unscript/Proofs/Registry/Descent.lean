import Unscript.Proofs.Outcome
import Unscript.Registry.Resolve
import Mathlib.Data.List.Nodup

/-!
# Descent from a root

An entry descends from a root along its bases. Resolving a state with the states found before gives
what the changes along this way give, whatever was found before: an entry is found if and only if it
descends from a root and all changes on the way can be made.

* `Registry.Descends`: the way from a root to an entry.
* `Registry.HasState`: the state that the changes on the way make.
* `Registry.Holds`: states found before that are those of their entries.

Results:
* `Registry.Descends.unique`: there is one way to an entry; `Registry.Descends.not_mem`: it does not
  come back to the entry.
* `Registry.resolveState_ok`, `Registry.exists_resolveState`: what resolving a state finds.
* `Registry.stateOf_of_hasState`: the walk without memory finds it too.
-/

namespace Unscript.Registry

/-- The way from a root to the entry with an id. Every entry on it is based on the one before, and
the first on none. -/
inductive Descends (entries : List Named) : String → List Named → Prop
  | root {named : Named} (hmem : named ∈ entries) (hbase : named.2.base = none) :
    Descends entries named.1 [named]
  | based {named : Named} {key : Key} {base : String} {way : List Named} (hmem : named ∈ entries)
    (hbase : named.2.base = some key) (hkey : idOf key = .ok base)
    (hway : Descends entries base way) : Descends entries named.1 (way ++ [named])

/-- The state of an entry: the changes on the way from its root. -/
def HasState (eras : List EraEntry) (known : List String) (entries : List Named) (id : String)
    (s : State) : Prop :=
  ∃ way, Descends entries id way ∧ way.foldlM (step eras known) none = .ok (some s)

/-- What was found are the states of entries. -/
def Holds (eras : List EraEntry) (known : List String) (entries : List Named) (found : Found) :
    Prop :=
  ∀ id s, found.lookup id = some s → HasState eras known entries id s

variable {eras : List EraEntry} {known : List String} {entries unvisited : List Named}
  {found : Found} {way way' : List Named} {chain : List String} {id base : String} {named : Named}
  {s : State}

/-! ## Ways -/

namespace Descends

theorem mono {entries' : List Named} (h : Descends entries id way) (hsub : entries ⊆ entries') :
    Descends entries' id way := by
  induction h with
  | root hmem hbase => exact .root (hsub hmem) hbase
  | based hmem hbase hkey _ ih => exact .based (hsub hmem) hbase hkey ih

/-- A way ends with its entry, which is a root or stands behind the way to its base. -/
theorem exists_last (h : Descends entries id way) : ∃ named ∈ entries, named.1 = id ∧
    (named.2.base = none ∧ way = [named] ∨ ∃ key base before, named.2.base = some key ∧
      idOf key = .ok base ∧ Descends entries base before ∧ way = before ++ [named]) := by
  cases h with
  | root hmem hbase => exact ⟨_, hmem, rfl, .inl ⟨hbase, rfl⟩⟩
  | based hmem hbase hkey hway => exact ⟨_, hmem, rfl, .inr ⟨_, _, _, hbase, hkey, hway, rfl⟩⟩

theorem subset (h : Descends entries id way) : way ⊆ entries := by
  induction h with
  | root hmem => exact List.cons_subset.mpr ⟨hmem, List.nil_subset _⟩
  | based hmem _ _ _ ih => exact List.append_subset.mpr ⟨ih, List.cons_subset.mpr ⟨hmem, List.nil_subset _⟩⟩

/-- What stands on a way has a way of its own. -/
theorem of_mem (h : Descends entries id way) (hmem : named ∈ way) :
    ∃ before, before <+: way ∧ Descends entries named.1 before := by
  induction h with
  | root hroot hbase =>
    obtain rfl := List.mem_singleton.mp hmem
    exact ⟨_, List.prefix_rfl, .root hroot hbase⟩
  | @based last key base way hlast hbase hkey hway ih =>
    rcases List.mem_append.mp hmem with hmem | hmem
    · obtain ⟨before, hprefix, hbefore⟩ := ih hmem
      exact ⟨before, hprefix.trans (List.prefix_append _ _), hbefore⟩
    · obtain rfl := List.mem_singleton.mp hmem
      exact ⟨_, List.prefix_rfl, .based hlast hbase hkey hway⟩

end Descends

/-- Ids tell the entries apart. -/
theorem eq_of_id (hids : (entries.map (·.1)).Nodup) {a b : Named} (ha : a ∈ entries)
    (hb : b ∈ entries) (h : a.1 = b.1) : a = b :=
  List.inj_on_of_nodup_map hids ha hb h

namespace Descends

/-- There is one way to an entry. -/
theorem unique (hids : (entries.map (·.1)).Nodup) (h : Descends entries id way)
    (h' : Descends entries id way') : way = way' := by
  induction h generalizing way' with
  | root hmem hbase =>
    obtain ⟨last, hlast, hid, ⟨-, rfl⟩ | ⟨key, -, -, hbase', -⟩⟩ := h'.exists_last
    · rw [eq_of_id hids hmem hlast hid.symm]
    · cases eq_of_id hids hmem hlast hid.symm
      cases hbase.symm.trans hbase'
  | based hmem hbase hkey _ ih =>
    obtain ⟨last, hlast, hid, ⟨hbase', -⟩ | ⟨key, base, before, hbase', hkey', hbefore, rfl⟩⟩ :=
      h'.exists_last
    · cases eq_of_id hids hmem hlast hid.symm
      cases hbase.symm.trans hbase'
    · cases eq_of_id hids hmem hlast hid.symm
      cases hbase.symm.trans hbase'
      cases hkey.symm.trans hkey'
      rw [ih hbefore]

/-- An entry does not stand on the way to its base. -/
theorem not_mem {key : Key} (hids : (entries.map (·.1)).Nodup) (hmem : named ∈ entries)
    (hbase : named.2.base = some key) (hkey : idOf key = .ok base) (hway : Descends entries base way) :
    named ∉ way := by
  intro hin
  obtain ⟨before, hprefix, hbefore⟩ := hway.of_mem hin
  have heq := hbefore.unique hids (.based hmem hbase hkey hway)
  have hlength := hprefix.length_le
  rw [heq, List.length_append, List.length_singleton] at hlength
  omega

end Descends

/-! ## States -/

theorem HasState.mono {entries' : List Named} (h : HasState eras known entries id s)
    (hsub : entries ⊆ entries') : HasState eras known entries' id s :=
  h.imp fun _ hway => ⟨hway.1.mono hsub, hway.2⟩

theorem HasState.unique {s' : State} (hids : (entries.map (·.1)).Nodup)
    (h : HasState eras known entries id s) (h' : HasState eras known entries id s') : s = s' := by
  obtain ⟨way, hway, hs⟩ := h
  obtain ⟨way', hway', hs'⟩ := h'
  cases hway.unique hids hway'
  cases hs.symm.trans hs'
  rfl

theorem step_eq_ok {o : Option State} {o' : Option State} :
    step eras known o named = .ok o' ↔ ∃ s, changed eras known o named = .ok s ∧ o' = some s := by
  unfold step
  cases changed eras known o named <;> simp [Functor.map, Except.map, eq_comm]

theorem HasState.root (hmem : named ∈ entries) (hbase : named.2.base = none)
    (hs : changed eras known none named = .ok s) : HasState eras known entries named.1 s :=
  ⟨[named], .root hmem hbase,
    Outcome.bind_eq_ok.mpr ⟨some s, step_eq_ok.mpr ⟨s, hs, rfl⟩, rfl⟩⟩

theorem HasState.based {key : Key} {b : State} (hmem : named ∈ entries)
    (hbase : named.2.base = some key) (hkey : idOf key = .ok base)
    (hb : HasState eras known entries base b) (hs : changed eras known (some b) named = .ok s) :
    HasState eras known entries named.1 s := by
  obtain ⟨way, hway, hfold⟩ := hb
  refine ⟨way ++ [named], .based hmem hbase hkey hway, ?_⟩
  rw [List.foldlM_append]
  exact Outcome.bind_eq_ok.mpr ⟨some b, hfold,
    Outcome.bind_eq_ok.mpr ⟨some s, step_eq_ok.mpr ⟨s, hs, rfl⟩, rfl⟩⟩

/-- A way leads to a state. -/
theorem exists_state {o : Option State} (hway : Descends entries id way)
    (h : way.foldlM (step eras known) none = .ok o) : ∃ s, o = some s := by
  obtain ⟨named, -, -, ⟨-, rfl⟩ | ⟨-, -, before, -, -, -, rfl⟩⟩ := hway.exists_last
  · obtain ⟨o', ho, h⟩ := Outcome.bind_eq_ok.mp h
    cases h
    exact (step_eq_ok.mp ho).imp fun _ hs => hs.2
  · rw [List.foldlM_append] at h
    obtain ⟨_, -, h⟩ := Outcome.bind_eq_ok.mp h
    obtain ⟨o', ho, h⟩ := Outcome.bind_eq_ok.mp h
    cases h
    exact (step_eq_ok.mp ho).imp fun _ hs => hs.2

/-- What is found is kept with the states found before. -/
theorem keepState_ok {o : Option State} {found' : Found}
    (h : keepState eras known o named found = .ok (s, found')) :
    changed eras known o named = .ok s ∧ found' = (named.1, s) :: found := by
  obtain ⟨s', hs', h⟩ := Outcome.bind_eq_ok.mp h
  cases h
  exact ⟨hs', rfl⟩

theorem keepState_of_changed {o : Option State} (h : changed eras known o named = .ok s) :
    keepState eras known o named found = .ok (s, (named.1, s) :: found) :=
  Outcome.bind_eq_ok.mpr ⟨s, h, rfl⟩

theorem Holds.cons (hfound : Holds eras known entries found)
    (hs : HasState eras known entries id s) : Holds eras known entries ((id, s) :: found) := by
  intro id' s' h
  rw [List.lookup_cons] at h
  split at h
  · rename_i heq
    cases h
    rwa [beq_iff_eq.mp heq]
  · exact hfound id' s' h

theorem Holds.nil : Holds eras known entries [] :=
  fun _ _ h => nomatch h

/-- **What resolving a state finds** are states of entries, if that holds of what was found before. -/
theorem resolveState_ok {found' : Found} (hsub : unvisited ⊆ entries)
    (hfound : Holds eras known entries found)
    (h : resolveState eras known unvisited found chain id = .ok (s, found')) :
    HasState eras known entries id s ∧ Holds eras known entries found' := by
  fun_induction resolveState eras known unvisited found chain id generalizing s found' with
  | case1 unvisited chain id s' hlookup =>
    cases h
    exact ⟨hfound _ _ hlookup, hfound⟩
  | case2 => cases h
  | case3 => cases h
  | case4 unvisited chain id _ _ named hnamed hbase =>
    obtain rfl : named.1 = id := by simpa using List.find?_some hnamed
    obtain ⟨hs, rfl⟩ := keepState_ok h
    have hstate := HasState.root (hsub (List.mem_of_find?_eq_some hnamed)) hbase hs
    exact ⟨hstate, hfound.cons hstate⟩
  | case5 => cases h
  | case6 => cases h
  | case7 unvisited chain id _ _ named hnamed key hbase base hkey b found₁ hrec ih =>
    obtain rfl : named.1 = id := by simpa using List.find?_some hnamed
    obtain ⟨hs, rfl⟩ := keepState_ok h
    obtain ⟨hb, hfound₁⟩ := ih (fun _ hn => hsub (List.mem_of_mem_eraseP hn)) hrec
    have hstate := hb.based (hsub (List.mem_of_find?_eq_some hnamed)) hbase hkey hs
    exact ⟨hstate, hfound₁.cons hstate⟩

/-- The entry with an id is met, unless it was met before. -/
theorem find?_unvisited (hids : (entries.map (·.1)).Nodup) (hsub : unvisited ⊆ entries)
    (hmem : named ∈ unvisited) : unvisited.find? (·.1 == named.1) = some named := by
  cases hfind : unvisited.find? (·.1 == named.1) with
  | none => exact absurd (beq_self_eq_true _) (List.find?_eq_none.mp hfind named hmem)
  | some n =>
    have hid : n.1 = named.1 := by simpa using List.find?_some hfind
    rw [eq_of_id hids (hsub (List.mem_of_find?_eq_some hfind)) (hsub hmem) hid]

/-- The entries that were not met, when one more is met. -/
theorem mem_eraseP_unvisited (hrest : ∀ n ∈ entries, n.1 ∉ chain → n ∈ unvisited) :
    ∀ n ∈ entries, n.1 ∉ chain ++ [id] → n ∈ unvisited.eraseP (·.1 == id) := by
  intro n hn hnew
  rw [List.mem_append, List.mem_singleton, not_or] at hnew
  exact (List.mem_eraseP_of_neg (by simpa using hnew.2)).mpr (hrest n hn hnew.1)

/-- The way to the base of an entry meets neither the entry nor what was met before. -/
theorem not_mem_chain {key : Key} (hids : (entries.map (·.1)).Nodup) (hmem : named ∈ entries)
    (hbase : named.2.base = some key) (hkey : idOf key = .ok base) (hway : Descends entries base way)
    (hnew : ∀ n ∈ way ++ [named], n.1 ∉ chain) : ∀ n ∈ way, n.1 ∉ chain ++ [named.1] := by
  intro n hn hin
  rcases List.mem_append.mp hin with hin | hin
  · exact hnew n (List.mem_append_left _ hn) hin
  · cases eq_of_id hids (hway.subset hn) hmem (List.mem_singleton.mp hin)
    exact hway.not_mem hids hmem hbase hkey hn

/-- **The state of an entry is found,** whatever was found before. -/
theorem exists_resolveState (hids : (entries.map (·.1)).Nodup)
    (hway : Descends entries id way) (hs : way.foldlM (step eras known) none = .ok (some s))
    (hsub : unvisited ⊆ entries) (hrest : ∀ n ∈ entries, n.1 ∉ chain → n ∈ unvisited)
    (hnew : ∀ n ∈ way, n.1 ∉ chain) (hfound : Holds eras known entries found) :
    ∃ found', resolveState eras known unvisited found chain id = .ok (s, found') := by
  induction hway generalizing s unvisited chain with
  | @root named hmem hbase =>
    obtain ⟨o, ho, h⟩ := Outcome.bind_eq_ok.mp hs
    cases h
    obtain ⟨_, hs', ⟨⟩⟩ := step_eq_ok.mp ho
    have hunmet := hnew named (List.mem_singleton_self _)
    have hfind := find?_unvisited hids hsub (hrest _ hmem hunmet)
    rw [resolveState]
    split
    · rename_i s' hlookup
      rw [(hfound _ _ hlookup).unique hids (.root hmem hbase hs')]
      exact ⟨found, rfl⟩
    · rw [if_neg hunmet]
      split
      · rename_i hnone
        cases hfind.symm.trans hnone
      · rename_i hsome
        cases hfind.symm.trans hsome
        rw [hbase]
        exact ⟨_, keepState_of_changed hs'⟩
  | @based named key base way hmem hbase hkey hway ih =>
    rw [List.foldlM_append] at hs
    obtain ⟨o, hfold, hs⟩ := Outcome.bind_eq_ok.mp hs
    obtain ⟨o', ho, h⟩ := Outcome.bind_eq_ok.mp hs
    cases h
    obtain ⟨_, hs', ⟨⟩⟩ := step_eq_ok.mp ho
    have hunmet := hnew named (List.mem_append_right _ (List.mem_singleton_self _))
    have hfind := find?_unvisited hids hsub (hrest _ hmem hunmet)
    obtain ⟨b, rfl⟩ := exists_state hway hfold
    obtain ⟨found₁, hrec⟩ := ih hfold (fun _ hn => hsub (List.mem_of_mem_eraseP hn))
      (mem_eraseP_unvisited hrest) (not_mem_chain hids hmem hbase hkey hway hnew)
    rw [resolveState]
    split
    · rename_i s' hlookup
      rw [(hfound _ _ hlookup).unique hids (.based hmem hbase hkey ⟨way, hway, hfold⟩ hs')]
      exact ⟨found, rfl⟩
    · rw [if_neg hunmet]
      split
      · rename_i hnone
        cases hfind.symm.trans hnone
      · rename_i hsome
        cases hfind.symm.trans hsome
        simp only [hbase, hkey, hrec]
        exact ⟨_, keepState_of_changed hs'⟩

/-! ## The walk without memory -/

/-- The way to an entry is walked. -/
theorem chainOf_of_descends (hids : (entries.map (·.1)).Nodup) (hway : Descends entries id way)
    (hsub : unvisited ⊆ entries) (hrest : ∀ n ∈ entries, n.1 ∉ chain → n ∈ unvisited)
    (hnew : ∀ n ∈ way, n.1 ∉ chain) : chainOf unvisited chain id = .ok way := by
  induction hway generalizing unvisited chain with
  | @root named hmem hbase =>
    have hunmet := hnew named (List.mem_singleton_self _)
    have hfind := find?_unvisited hids hsub (hrest _ hmem hunmet)
    rw [chainOf, if_neg hunmet]
    split
    · rename_i hnone
      cases hfind.symm.trans hnone
    · rename_i hsome
      cases hfind.symm.trans hsome
      rw [hbase]
  | @based named key base way hmem hbase hkey hway ih =>
    have hunmet := hnew named (List.mem_append_right _ (List.mem_singleton_self _))
    have hfind := find?_unvisited hids hsub (hrest _ hmem hunmet)
    have hrec := ih (fun _ hn => hsub (List.mem_of_mem_eraseP hn))
      (mem_eraseP_unvisited hrest) (not_mem_chain hids hmem hbase hkey hway hnew)
    rw [chainOf, if_neg hunmet]
    split
    · rename_i hnone
      cases hfind.symm.trans hnone
    · rename_i hsome
      cases hfind.symm.trans hsome
      simp only [hbase, hkey, hrec]

/-- **The walk without memory** finds the state as well. -/
theorem stateOf_of_hasState (hids : (entries.map (·.1)).Nodup)
    (h : HasState eras known entries id s) : stateOf eras known entries id = .ok s := by
  obtain ⟨way, hway, hs⟩ := h
  have hchain : chainOf entries [] id = .ok way :=
    chainOf_of_descends hids hway (List.Subset.refl _) (fun _ hn _ => hn) fun _ _ => List.not_mem_nil
  exact Outcome.bind_eq_ok.mpr ⟨way, hchain, Outcome.bind_eq_ok.mpr ⟨some s, hs, rfl⟩⟩

end Unscript.Registry
