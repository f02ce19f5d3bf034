import Unscript.Proofs.Detection.Score
import Unscript.Proofs.Registry.Concrete
import Mathlib.Data.List.Nodup

/-!
# The choice of a dialect

A dialect is never picked arbitrarily. The tag decides if it is registered; else, when dialects may be
probed, the scores decide, and the caller among dialects whose scores tie. What is found depends on
which dialects a registry has and not on their order.

* `Detection.Tagged`: the tag of a script spells the id of a dialect.
* `Detection.Eligible`, `Detection.Leads`: dialects that are probed, and those with the best score.
* `Detection.Conclusive`: the best score is good enough.
* `Detection.Decided`: what is found, from these.

Results:
* `Detection.bestOf_mem`, `Detection.le_bestOf`: the best of some scores is the greatest of them.
* `Detection.choose_leaders`: what is chosen among probed dialects.
* `Detection.Decided.perm`: these facts do not depend on the order of the dialects.
* `Detection.ofContainer_decided`: they hold of what is found.
-/

namespace Unscript

open Number (Double Numeric)

namespace Noted

variable {α β : Type}

theorem value_mapM_loop (f : α → Noted β) (l : List α) (acc : List β) :
    (List.mapM.loop f l acc).value = acc.reverse ++ l.map fun a => (f a).value := by
  induction l generalizing acc with
  | nil => simp [List.mapM.loop]
  | cons a l ih => simp [List.mapM.loop, ih]

@[simp] theorem value_mapM (f : α → Noted β) (l : List α) :
    (l.mapM f).value = l.map fun a => (f a).value :=
  value_mapM_loop f l []

end Noted

namespace Detection

/-! ## Which dialects are probed, and which lead -/

/-- Whether the tag of a script spells the id of a dialect. -/
def Tagged (c : Container) (d : Dialect) : Prop :=
  (Key.bytes c.tag).id = .ok d.id

/-- Whether a dialect is probed for a script: it has the script's format, unless that is not known,
is zero, or is the format of no dialect. -/
def Eligible (r : Registry) (c : Container) (d : Dialect) : Prop :=
  d ∈ r.dialects ∧ ∀ format, c.format = some format → format ≠ 0 →
    (∃ e ∈ r.dialects, e.format = format) → d.format = format

/-- The score of a script with a dialect. -/
def scoreOf (o : DetectionOptions) (c : Container) (d : Dialect) : Double :=
  Score.ofUnit d o.probe c.payload

/-- Whether no dialect that is probed scores more than a tie above this one. -/
def Leads (r : Registry) (o : DetectionOptions) (c : Container) (d : Dialect) : Prop :=
  Eligible r c d ∧ ∀ e, Eligible r c e → ties (scoreOf o c e) (scoreOf o c d)

/-- Whether the best score is not below the least score wanted. -/
def Conclusive (r : Registry) (o : DetectionOptions) (c : Container) : Prop :=
  ∃ d, Eligible r c d ∧ (∀ e, Eligible r c e → (scoreOf o c e).toRat ≤ (scoreOf o c d).toRat) ∧
    Numeric.lt (.real (scoreOf o c d)) o.minScore = false

/-- Whether the caller prefers a dialect. -/
def Preferred (o : DetectionOptions) (d : Dialect) : Prop :=
  ∃ key, o.prefer = some key ∧ key.id = .ok d.id

/-- What is found for a script in a registry. -/
structure Decided (r : Registry) (o : DetectionOptions) (c : Container) (x : Detection) : Prop where
  /-- The result is exact just when the tag is registered. -/
  exact_iff : x.status = .exact ↔ ∃ d ∈ r.dialects, Tagged c d
  /-- Nothing is known without probing, nor if the best score is too low. -/
  unknown_iff : x.status = .unknown ↔
    (¬ ∃ d ∈ r.dialects, Tagged c d) ∧ (o.heuristic = true → ¬ Conclusive r o c)
  /-- The result is ambiguous if several dialects lead and the caller prefers none of them. -/
  ambiguous_iff : x.status = .ambiguous ↔
    (¬ ∃ d ∈ r.dialects, Tagged c d) ∧ o.heuristic = true ∧ Conclusive r o c ∧
      (∃ d e, Leads r o c d ∧ Leads r o c e ∧ d ≠ e) ∧ ∀ d, Leads r o c d → ¬ Preferred o d
  /-- A dialect is found by the tag, as the only leader, or as the leader that is preferred. -/
  version_iff : ∀ d, x.version = some d ↔
    (d ∈ r.dialects ∧ Tagged c d) ∨
      (¬ ∃ e ∈ r.dialects, Tagged c e) ∧ o.heuristic = true ∧ Conclusive r o c ∧ Leads r o c d ∧
        ((∀ e, Leads r o c e → e = d) ∨ Preferred o d)
  /-- The candidates are the dialect of the tag, or all that lead. -/
  candidates_iff : ∀ d, d ∈ x.candidates ↔
    (d ∈ r.dialects ∧ Tagged c d) ∨
      (¬ ∃ e ∈ r.dialects, Tagged c e) ∧ o.heuristic = true ∧ Conclusive r o c ∧ Leads r o c d
  /-- They come in the order of the registry. -/
  sublist : x.candidates.Sublist r.dialects

/-! ## The best score -/

theorem foldl_max (scores : List Double) (a : Double) :
    let m := scores.foldl (fun a b => if a.toRat < b.toRat then b else a) a
    (m = a ∨ m ∈ scores) ∧ a.toRat ≤ m.toRat ∧ ∀ s ∈ scores, s.toRat ≤ m.toRat := by
  induction scores generalizing a with
  | nil => simp
  | cons s scores ih =>
    obtain ⟨hmem, hle, hall⟩ := ih (if a.toRat < s.toRat then s else a)
    rw [List.foldl_cons]
    dsimp only at hmem hle hall ⊢
    generalize scores.foldl (fun a b => if a.toRat < b.toRat then b else a)
      (if a.toRat < s.toRat then s else a) = m at *
    rw [List.forall_mem_cons, List.mem_cons]
    split at hle <;> rename_i hlt
    · rw [if_pos hlt] at hmem
      exact ⟨Or.inr hmem, hlt.le.trans hle, hle, hall⟩
    · rw [if_neg hlt] at hmem
      exact ⟨hmem.imp_right Or.inr, hle, (not_lt.mp hlt).trans hle, hall⟩

theorem le_bestOf {scores : List Double} {s : Double} (hs : s ∈ scores) :
    s.toRat ≤ (bestOf scores).toRat :=
  (foldl_max scores (Double.ofRat 0)).2.2 s hs

/-- The best of some scores is one of them. -/
theorem bestOf_mem {scores : List Double} (hne : scores ≠ [])
    (hscores : ∀ s ∈ scores, ∃ q : ℚ, 0 ≤ q ∧ s = Double.ofRat q) : bestOf scores ∈ scores := by
  obtain h | h := (foldl_max scores (Double.ofRat 0)).1
  · -- The fold starts at zero, so then all scores are zero.
    change bestOf scores = Double.ofRat 0 at h
    obtain ⟨s, hs⟩ := List.exists_mem_of_ne_nil scores hne
    obtain ⟨q, hq, rfl⟩ := hscores s hs
    have hle := le_bestOf hs
    rw [h] at hle ⊢
    have hzero : Double.ofRat 0 = Double.ofRat q :=
      Double.ofRat_eq_of_toRat_eq (le_refl _) hq (hle.antisymm' (Double.toRat_ofRat_mono hq))
    rwa [hzero]
  · exact h

/-- A score that ties with another ties with all that are not above it. -/
theorem ties_of_le {a b s : Double} (h : ties b s) (hle : a.toRat ≤ b.toRat) : ties a s := by
  unfold ties at h ⊢
  rw [decide_eq_true_eq] at h ⊢
  exact (Double.toRat_ofRat_mono (by linarith)).trans h

theorem ties_self (s : Double) : ties s s := by
  unfold ties
  rw [sub_self]
  decide +kernel

/-! ## What is chosen -/

variable {o : DetectionOptions} {name tag : String}

/-- The preferred dialect is the one leader whose id the caller gives. -/
theorem preferred?_eq_some {leaders : List Dialect} {d : Dialect}
    (h : (preferred? name leaders o.prefer).value = some d) : d ∈ leaders ∧ Preferred o d := by
  unfold preferred? at h
  cases hkey : o.prefer with
  | none => simp [hkey] at h
  | some key =>
    cases hid : key.id with
    | error e => simp [hkey, hid] at h
    | ok id =>
      simp only [hkey, hid, Noted.value_pure] at h
      have hd : d.id = id := by simpa using List.find?_some h
      exact ⟨List.mem_of_find?_eq_some h, key, hkey, hd ▸ hid⟩

theorem preferred?_eq_none {leaders : List Dialect}
    (h : (preferred? name leaders o.prefer).value = none) : ∀ d ∈ leaders, ¬ Preferred o d := by
  rintro d hd ⟨key, hkey, hid⟩
  simp only [preferred?, hkey, hid, Noted.value_pure, List.find?_eq_none] at h
  exact h d hd (beq_self_eq_true _)

/-- The leaders among some dialects. -/
def leaders (score : Dialect → Double) (ds : List Dialect) : List Dialect :=
  ds.filter fun d => ties (bestOf (ds.map score)) (score d)

/-- **The choice** among some dialects with their scores. -/
theorem choose_leaders (o : DetectionOptions) (name tag : String) (score : Dialect → Double)
    (ds : List Dialect) {x : Detection}
    (hx : (choose o name tag (ds.map fun d => (d, score d))).value = x) :
    ((ds = [] ∨ Numeric.lt (.real (bestOf (ds.map score))) o.minScore = true) ∧
        x.status = .unknown ∧ x.version = none ∧ x.candidates = []) ∨
      (ds ≠ [] ∧ Numeric.lt (.real (bestOf (ds.map score))) o.minScore = false ∧
        x.candidates = leaders score ds ∧
        ((∃ d ∈ leaders score ds, x.status = .heuristic ∧ x.version = some d ∧
            (leaders score ds = [d] ∨ Preferred o d)) ∨
          (x.status = .ambiguous ∧ x.version = none ∧ (∀ d, leaders score ds ≠ [d]) ∧
            ∀ d ∈ leaders score ds, ¬ Preferred o d))) := by
  have hscores : (ds.map fun d => (d, score d)).map (·.2) = ds.map score := by
    rw [List.map_map]
    rfl
  have hleaders : ((ds.map fun d => (d, score d)).filter fun p =>
      ties (bestOf (ds.map score)) p.2).map (·.1) = leaders score ds := by
    rw [List.filter_map, List.map_map]
    exact List.map_id _
  unfold choose at hx
  simp only [List.isEmpty_iff, List.map_eq_nil_iff] at hx
  split at hx
  · rename_i hnil
    subst hx
    exact Or.inl ⟨Or.inl hnil, rfl, rfl, rfl⟩
  · rename_i hne
    simp only [hscores, hleaders] at hx
    split at hx
    · rename_i hlt
      subst hx
      exact Or.inl ⟨Or.inr hlt, rfl, rfl, rfl⟩
    · rename_i hlt
      refine Or.inr ⟨hne, Bool.eq_false_iff.mpr hlt, ?_⟩
      generalize leaders score ds = ls at hx ⊢
      split at hx
      · rename_i d
        subst hx
        exact ⟨rfl, Or.inl ⟨d, List.mem_singleton_self _, rfl, rfl, Or.inl rfl⟩⟩
      · rename_i hsingle
        simp only [Noted.value_bind] at hx
        split at hx
        · rename_i d hpreferred
          obtain ⟨hmem, hd⟩ := preferred?_eq_some hpreferred
          subst hx
          exact ⟨rfl, Or.inl ⟨d, hmem, rfl, rfl, Or.inr hd⟩⟩
        · rename_i hpreferred
          subst hx
          exact ⟨rfl, Or.inr ⟨rfl, rfl, hsingle, preferred?_eq_none hpreferred⟩⟩

/-! ## What is found -/

variable {r r' : Registry} {c : Container} {d e : Dialect} {x x' : Detection}

/-- Ids tell the dialects of a registry apart. -/
theorem eq_of_id (hr : r.ids.Nodup) (hd : d ∈ r.dialects) (he : e ∈ r.dialects)
    (h : d.id = e.id) : d = e :=
  List.inj_on_of_nodup_map hr hd he h

theorem Tagged.eq (hr : r.ids.Nodup) (hd : d ∈ r.dialects) (he : e ∈ r.dialects)
    (htd : Tagged c d) (hte : Tagged c e) : d = e :=
  eq_of_id hr hd he (Except.ok.inj (htd.symm.trans hte))

theorem Preferred.eq (hr : r.ids.Nodup) (hd : d ∈ r.dialects) (he : e ∈ r.dialects)
    (hpd : Preferred o d) (hpe : Preferred o e) : d = e := by
  obtain ⟨key, hkey, hid⟩ := hpd
  obtain ⟨key', hkey', hid'⟩ := hpe
  cases Option.some.inj (hkey.symm.trans hkey')
  exact eq_of_id hr hd he (Except.ok.inj (hid.symm.trans hid'))

theorem get?_tag_eq_some (h : r.get? (.bytes c.tag) = some d) : d ∈ r.dialects ∧ Tagged c d := by
  unfold Registry.get? Registry.lookup? at h
  cases hid : (Key.bytes c.tag).id with
  | error e => simp [hid, Except.map] at h
  | ok id =>
    simp only [hid, Except.map] at h
    have hd : d.id = id := by simpa using List.find?_some h
    exact ⟨List.mem_of_find?_eq_some h, by rw [Tagged, hid, hd]⟩

theorem get?_tag_eq_none (h : r.get? (.bytes c.tag) = none) : ¬ ∃ d ∈ r.dialects, Tagged c d := by
  rintro ⟨d, hd, htag⟩
  unfold Registry.get? Registry.lookup? at h
  rw [htag] at h
  exact List.find?_eq_none.mp h d hd (beq_self_eq_true _)

theorem candidatesFor_sublist (r : Registry) (c : Container) :
    (candidatesFor r c).Sublist r.dialects := by
  unfold candidatesFor
  split
  · exact List.Sublist.refl _
  · dsimp only
    split_ifs
    · exact List.Sublist.refl _
    · exact List.filter_sublist

theorem mem_candidatesFor : d ∈ candidatesFor r c ↔ Eligible r c d := by
  unfold candidatesFor Eligible
  cases hformat : c.format with
  | none => simp
  | some format =>
    have hempty : (r.withFormat format).isEmpty = true ↔ ¬ ∃ e ∈ r.dialects, e.format = format := by
      simp [Registry.withFormat]
    have hmem : d ∈ r.withFormat format ↔ d ∈ r.dialects ∧ d.format = format := by
      simp [Registry.withFormat]
    simp only [Option.some.injEq, forall_eq', Bool.or_eq_true, decide_eq_true_eq, hempty]
    split_ifs with h
    · simp only [iff_self_and]
      intro _ hne hsome
      exact absurd hsome (h.resolve_left hne)
    · rw [hmem]
      have hsome := not_not.mp fun hno => h (Or.inr hno)
      simp only [not_or] at h
      exact and_congr_right fun _ => ⟨fun hd _ _ => hd, fun hd => hd h.1 hsome⟩

theorem bestOf_scores_mem (hne : candidatesFor r c ≠ []) :
    ∃ d, Eligible r c d ∧ scoreOf o c d = bestOf ((candidatesFor r c).map (scoreOf o c)) := by
  have hmem : bestOf ((candidatesFor r c).map (scoreOf o c)) ∈
      (candidatesFor r c).map (scoreOf o c) := bestOf_mem (by simpa using hne) (by
      intro s hs
      obtain ⟨d, -, rfl⟩ := List.mem_map.mp hs
      exact Score.exists_rounded_eq _ _)
  obtain ⟨d, hd, heq⟩ := List.mem_map.mp hmem
  exact ⟨d, mem_candidatesFor.mp hd, heq⟩

theorem scoreOf_le_bestOf (he : Eligible r c e) : (scoreOf o c e).toRat ≤
    (bestOf ((candidatesFor r c).map (scoreOf o c))).toRat :=
  le_bestOf (List.mem_map_of_mem (mem_candidatesFor.mpr he))

/-- Dialects lead if they tie with the best score. -/
theorem mem_leaders : d ∈ leaders (scoreOf o c) (candidatesFor r c) ↔ Leads r o c d := by
  unfold leaders Leads
  rw [List.mem_filter, mem_candidatesFor]
  refine and_congr_right fun hd => ⟨fun h e he => ties_of_le h (scoreOf_le_bestOf he), fun h => ?_⟩
  obtain ⟨e, he, hbest⟩ := bestOf_scores_mem (o := o)
    (List.ne_nil_of_mem (mem_candidatesFor.mpr hd))
  rw [← hbest]
  exact h e he

theorem conclusive_iff : Conclusive r o c ↔ candidatesFor r c ≠ [] ∧
    Numeric.lt (.real (bestOf ((candidatesFor r c).map (scoreOf o c)))) o.minScore = false := by
  constructor
  · rintro ⟨d, hd, hmax, hmin⟩
    have hne := List.ne_nil_of_mem (mem_candidatesFor.mpr hd)
    obtain ⟨e, he, hbest⟩ := bestOf_scores_mem (o := o) hne
    have hle := scoreOf_le_bestOf (o := o) hd
    rw [← hbest] at hle ⊢
    obtain ⟨p, hp, hpd⟩ := Score.exists_rounded_eq o.probe (Score.probed d o.probe c.payload)
    obtain ⟨q, hq, hqe⟩ := Score.exists_rounded_eq o.probe (Score.probed e o.probe c.payload)
    have heq : scoreOf o c d = scoreOf o c e := by
      have := (hmax e he).antisymm' hle
      unfold scoreOf Score.ofUnit at this ⊢
      rw [hpd, hqe] at this ⊢
      exact Double.ofRat_eq_of_toRat_eq hp hq this
    exact ⟨hne, heq ▸ hmin⟩
  · rintro ⟨hne, hmin⟩
    obtain ⟨d, hd, hbest⟩ := bestOf_scores_mem (o := o) hne
    exact ⟨d, hd, fun e he => hbest ▸ scoreOf_le_bestOf he, hbest ▸ hmin⟩

/-- Leaders that are not a single one are several. -/
theorem exists_two_leaders (hr : r.ids.Nodup) (hc : Conclusive r o c)
    (hsingle : ∀ d, leaders (scoreOf o c) (candidatesFor r c) ≠ [d]) :
    ∃ d e, Leads r o c d ∧ Leads r o c e ∧ d ≠ e := by
  have hnodup : (leaders (scoreOf o c) (candidatesFor r c)).Nodup :=
    (List.Nodup.of_map _ hr).sublist (List.filter_sublist.trans (candidatesFor_sublist r c))
  obtain ⟨a, ha, hbest⟩ := bestOf_scores_mem (o := o) (conclusive_iff.mp hc).1
  have hmem : a ∈ leaders (scoreOf o c) (candidatesFor r c) :=
    List.mem_filter.mpr ⟨mem_candidatesFor.mpr ha, hbest ▸ ties_self _⟩
  match hls : leaders (scoreOf o c) (candidatesFor r c) with
  | [] => simp [hls] at hmem
  | [d] => exact absurd hls (hsingle d)
  | d :: e :: ds =>
    rw [hls] at hnodup
    refine ⟨d, e, ?_, ?_, fun heq => ?_⟩
    · exact mem_leaders.mp (by simp [hls])
    · exact mem_leaders.mp (by simp [hls])
    · simp [heq] at hnodup

/-- A registered tag decides alone. -/
theorem Decided.of_tag (hr : r.ids.Nodup) (hd : d ∈ r.dialects) (htag : Tagged c d)
    (hstatus : x.status = .exact) (hversion : x.version = some d) (hcandidates : x.candidates = [d]) :
    Decided r o c x := by
  have htagged : ∃ d ∈ r.dialects, Tagged c d := ⟨d, hd, htag⟩
  have honly : ∀ e, e = d ↔ e ∈ r.dialects ∧ Tagged c e :=
    fun e => ⟨fun h => h ▸ ⟨hd, htag⟩, fun h => Tagged.eq hr h.1 hd h.2 htag⟩
  constructor
  case exact_iff => simp [hstatus, htagged]
  case unknown_iff => simp [hstatus, htagged]
  case ambiguous_iff => simp [hstatus, htagged]
  case version_iff =>
    intro e
    rw [hversion, Option.some.injEq, eq_comm, honly]
    simp [htagged]
  case candidates_iff =>
    intro e
    rw [hcandidates, List.mem_singleton, honly]
    simp [htagged]
  case sublist => simpa [hcandidates] using hd

/-- Nothing is found otherwise without probing, or if the best score is too low. -/
theorem Decided.of_unknown (hno : ¬ ∃ d ∈ r.dialects, Tagged c d)
    (hlow : o.heuristic = true → ¬ Conclusive r o c) (hstatus : x.status = .unknown)
    (hversion : x.version = none) (hcandidates : x.candidates = []) : Decided r o c x := by
  have hnone : ∀ e, ¬ (e ∈ r.dialects ∧ Tagged c e) := fun e he => hno ⟨e, he⟩
  constructor
  case exact_iff => simp [hstatus, hnone]
  case unknown_iff => exact ⟨fun _ => ⟨hno, hlow⟩, fun _ => hstatus⟩
  case ambiguous_iff =>
    rw [hstatus]
    exact ⟨nofun, fun h => absurd h.2.2.1 (hlow h.2.1)⟩
  case version_iff =>
    intro e
    rw [hversion]
    refine ⟨nofun, fun h => ?_⟩
    obtain h | ⟨-, hprobe, hconclusive, -⟩ := h
    · exact absurd h (hnone e)
    · exact absurd hconclusive (hlow hprobe)
  case candidates_iff =>
    intro e
    rw [hcandidates]
    refine ⟨nofun, fun h => ?_⟩
    obtain h | ⟨-, hprobe, hconclusive, -⟩ := h
    · exact absurd h (hnone e)
    · exact absurd hconclusive (hlow hprobe)
  case sublist => simp [hcandidates]

/-- The scores decide among the dialects that are probed. -/
theorem Decided.of_choice (hr : r.ids.Nodup) (hno : ¬ ∃ d ∈ r.dialects, Tagged c d)
    (hprobe : o.heuristic = true)
    (hx : (choose o name tag ((candidatesFor r c).map fun d => (d, scoreOf o c d))).value = x) :
    Decided r o c x := by
  have hnone : ∀ e, ¬ (e ∈ r.dialects ∧ Tagged c e) := fun e he => hno ⟨e, he⟩
  obtain ⟨hlow, hstatus, hversion, hcandidates⟩ | ⟨hne, hmin, hcandidates, hfound⟩ :=
    choose_leaders o name tag (scoreOf o c) (candidatesFor r c) hx
  · refine .of_unknown hno (fun _ hconclusive => ?_) hstatus hversion hcandidates
    obtain ⟨hne, hmin⟩ := conclusive_iff.mp hconclusive
    obtain h | h := hlow
    · exact hne h
    · exact Bool.false_ne_true (hmin.symm.trans h)
  · have hconclusive : Conclusive r o c := conclusive_iff.mpr ⟨hne, hmin⟩
    have hleads : ∀ e, e ∈ x.candidates ↔ Leads r o c e := fun e => hcandidates ▸ mem_leaders
    have hcandidates_iff : ∀ e, e ∈ x.candidates ↔ (e ∈ r.dialects ∧ Tagged c e) ∨
        (¬ ∃ e ∈ r.dialects, Tagged c e) ∧ o.heuristic = true ∧ Conclusive r o c ∧ Leads r o c e :=
      fun e => by simp [hleads, hnone, hprobe, hconclusive]
    have hsublist : x.candidates.Sublist r.dialects :=
      hcandidates ▸ List.filter_sublist.trans (candidatesFor_sublist r c)
    obtain ⟨d, hd, hstatus, hversion, hwhy⟩ | ⟨hstatus, hversion, hsingle, hpreferred⟩ := hfound
    · -- One dialect is found: it is the only leader, or no other leader is preferred.
      have hd : Leads r o c d := mem_leaders.mp hd
      have hwhy : (∀ e, Leads r o c e → e = d) ∨ Preferred o d := by
        refine hwhy.imp_left fun hls e he => ?_
        simpa [hls] using mem_leaders.mpr he
      refine ⟨?_, ?_, ?_, fun e => ?_, hcandidates_iff, hsublist⟩
      · simp [hstatus, hnone]
      · simp [hstatus, hprobe, hconclusive]
      · rw [hstatus]
        refine ⟨nofun, fun ⟨_, _, _, ⟨a, b, ha, hb, hab⟩, hnot⟩ => ?_⟩
        obtain honly | hp := hwhy
        · exact absurd ((honly a ha).trans (honly b hb).symm) hab
        · exact absurd hp (hnot d hd)
      · rw [hversion, Option.some.injEq]
        constructor
        · rintro rfl
          exact Or.inr ⟨hno, hprobe, hconclusive, hd, hwhy⟩
        · rintro (h | ⟨-, -, -, he, hwhy'⟩)
          · exact absurd h (hnone e)
          · obtain honly | hp := hwhy
            · exact (honly e he).symm
            · obtain honly' | hp' := hwhy'
              · exact honly' d hd
              · exact Preferred.eq hr hd.1.1 he.1.1 hp hp'
    · have htwo := exists_two_leaders hr hconclusive hsingle
      have hnot : ∀ e, Leads r o c e → ¬ Preferred o e := fun e he => hpreferred e (mem_leaders.mpr he)
      refine ⟨?_, ?_, ?_, fun e => ?_, hcandidates_iff, hsublist⟩
      · simp [hstatus, hnone]
      · simp [hstatus, hprobe, hconclusive]
      · exact ⟨fun _ => ⟨hno, hprobe, hconclusive, htwo, hnot⟩, fun _ => hstatus⟩
      · rw [hversion]
        refine ⟨nofun, fun h => ?_⟩
        obtain h | ⟨-, -, -, he, honly | hp⟩ := h
        · exact absurd h (hnone e)
        · obtain ⟨a, b, ha, hb, hab⟩ := htwo
          exact absurd ((honly a ha).trans (honly b hb).symm) hab
        · exact absurd hp (hnot e he)

/-- The tag, the scores and the caller decide what is found. -/
theorem Decided.of_container (hr : r.ids.Nodup) (o : DetectionOptions) (c : Container) :
    Decided r o c (ofContainer r o c).value := by
  unfold ofContainer
  cases hget : r.get? (.bytes c.tag) with
  | some d =>
    obtain ⟨hd, htag⟩ := get?_tag_eq_some hget
    exact .of_tag hr hd htag rfl rfl rfl
  | none =>
    have hno := get?_tag_eq_none hget
    dsimp only
    by_cases hprobe : o.heuristic = true
    · rw [if_pos hprobe]
      rw [Noted.value_bind, Noted.value_mapM]
      exact .of_choice hr hno hprobe rfl
    · rw [if_neg hprobe]
      exact .of_unknown hno (fun h => absurd h hprobe) rfl rfl rfl

/-- Only dialects of the registry are found. -/
theorem mem_of_version (h : (ofContainer r o c).value.version = some d) : d ∈ r.dialects := by
  unfold ofContainer at h
  cases hget : r.get? (.bytes c.tag) with
  | some e =>
    rw [hget] at h
    cases Option.some.inj h
    exact (get?_tag_eq_some hget).1
  | none =>
    rw [hget] at h
    dsimp only at h
    split at h
    · rw [Noted.value_bind, Noted.value_mapM] at h
      rcases choose_leaders o c.name c.tagText (scoreOf o c) (candidatesFor r c) rfl with
        ⟨-, -, hversion, -⟩ | ⟨-, -, -, ⟨e, he, -, hversion, -⟩ | ⟨-, hversion, -⟩⟩
      · cases hversion.symm.trans h
      · cases hversion.symm.trans h
        exact (candidatesFor_sublist r c).subset (List.mem_of_mem_filter he)
      · cases hversion.symm.trans h
    · cases h

/-- The facts do not depend on the order of the dialects. -/
theorem Decided.perm (hperm : r'.dialects.Perm r.dialects) (h' : Decided r' o c x')
    (h : Decided r o c x) :
    x'.status = x.status ∧ x'.version = x.version ∧ ∀ d, d ∈ x'.candidates ↔ d ∈ x.candidates := by
  have heligible : Eligible r' c = Eligible r c := by
    funext d
    simp only [Eligible, hperm.mem_iff]
  have hleads : Leads r' o c = Leads r o c := by
    funext d
    simp only [Leads, heligible]
  have hconclusive : Conclusive r' o c = Conclusive r o c := by
    simp only [Conclusive, heligible]
  have hexact : x'.status = .exact ↔ x.status = .exact := by
    rw [h'.exact_iff, h.exact_iff]
    simp only [hperm.mem_iff]
  have hunknown : x'.status = .unknown ↔ x.status = .unknown := by
    rw [h'.unknown_iff, h.unknown_iff]
    simp only [hperm.mem_iff, hconclusive]
  have hambiguous : x'.status = .ambiguous ↔ x.status = .ambiguous := by
    rw [h'.ambiguous_iff, h.ambiguous_iff]
    simp only [hperm.mem_iff, hconclusive, hleads]
  refine ⟨?_, Option.ext fun d => ?_, fun d => ?_⟩
  · cases hs : x.status <;> cases hs' : x'.status <;> simp_all
  · rw [h'.version_iff, h.version_iff]
    simp only [hperm.mem_iff, hconclusive, hleads]
  · rw [h'.candidates_iff, h.candidates_iff]
    simp only [hperm.mem_iff, hconclusive, hleads]

/-- **No dialect is picked arbitrarily.** In a registry whose ids differ, as they do in every registry
that is resolved (`Registry.nodup_ids`), the tag, the scores and the caller decide what is found, and the
order of the dialects changes neither the status nor the dialect found nor the set of the candidates. -/
theorem ofContainer_decided (hr : r.ids.Nodup) (o : DetectionOptions) (c : Container) :
    Decided r o c (ofContainer r o c).value ∧
      ∀ r' : Registry, r'.dialects.Perm r.dialects →
        (ofContainer r' o c).value.status = (ofContainer r o c).value.status ∧
        (ofContainer r' o c).value.version = (ofContainer r o c).value.version ∧
        ∀ d, d ∈ (ofContainer r' o c).value.candidates ↔
          d ∈ (ofContainer r o c).value.candidates := by
  refine ⟨.of_container hr o c, fun r' hperm => ?_⟩
  have hr' : r'.ids.Nodup := (hperm.map _).nodup_iff.mpr hr
  exact (Decided.of_container hr' o c).perm hperm (.of_container hr o c)

/-! ## A score below the least one wanted -/

/-- The first dialect with line tables, and one like it that has `BREAKPOINT` in place of `YIELD`. -/
def twins : Registry where
  source := Registry.standardSource
  dialects := [Registry.firstLined,
    { Registry.firstLined with
      id := "bbbbbbb"
      features := "breakpoint" :: Registry.firstLined.features.filter (· != "yield") }]

/-- A unit of three functions: `NOP`, then `BREAKPOINT` and `NOP`, then `YIELD` and `NOP`. The shares
of the functions are the same in both dialects, in another order. -/
def twinned : Container where
  tag := "V_none".toUTF8.toList
  payload := [3, 0, 0, 0, 0, 0] ++
    [0, 0, 0, 0, 0, 0, 0, 0, 0, 0, 0, 1, 0, 0, 0, 0, 0, 0] ++
    [0, 0, 0, 0, 0, 0, 0, 0, 0, 0, 0, 2, 0, 0, 0, 48, 0, 0, 0] ++
    [0, 0, 0, 0, 0, 0, 0, 0, 0, 0, 0, 3, 0, 0, 0, 44, 0, 0, 0, 0]
  format := some 5
  name := Container.anonymous

/-- The score of the first of the twins is wanted, and the second preferred. -/
def secondTwin : DetectionOptions where
  heuristic := true
  minScore := .real (Double.ofRat (7222222222222223 / 10000000000000000))
  prefer := some (.text "bbbbbbb")

/-- The twins lead in either order. -/
theorem ofContainer_decided_twins :
    twins.ids.Nodup ∧ Decided twins secondTwin twinned (ofContainer twins secondTwin twinned).value ∧
      ∀ d, d ∈ (ofContainer ⟨twins.source, twins.dialects.reverse⟩ secondTwin twinned).value.candidates ↔
        d ∈ (ofContainer twins secondTwin twinned).value.candidates := by
  have hids : twins.ids.Nodup := by decide
  obtain ⟨hdecided, hperm⟩ := ofContainer_decided hids secondTwin twinned
  exact ⟨hids, hdecided, (hperm ⟨twins.source, twins.dialects.reverse⟩ (List.reverse_perm _)).2.2⟩

/-- A dialect that is found may score below the least score wanted, if it ties with the best. -/
theorem not_forall_minScore_le :
    ¬ ∀ (r : Registry) (o : DetectionOptions) (c : Container) (d : Dialect),
      r.dialects ≠ [] → r.ids.Nodup → (ofContainer r o c).value.status = .heuristic →
      (ofContainer r o c).value.version = some d →
      Numeric.lt (.real (scoreOf o c d)) o.minScore = false := by
  intro hall
  have hfound : (ofContainer twins secondTwin twinned).value.version.any fun d =>
      Numeric.lt (.real (scoreOf secondTwin twinned d)) secondTwin.minScore := by decide +kernel
  obtain ⟨d, hd, hlt⟩ := (Option.any_eq_true _ _).mp hfound
  have hstatus : (ofContainer twins secondTwin twinned).value.status = .heuristic := by
    decide +kernel
  have hle := hall twins secondTwin twinned d (by decide) (by decide) hstatus hd
  exact Bool.false_ne_true (hle.symm.trans hlt)

end Detection

end Unscript
