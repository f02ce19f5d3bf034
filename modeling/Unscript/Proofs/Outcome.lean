import Mathlib.Data.List.Forall2

/-!
# Outcomes of computations that can fail

Results:
* `Outcome.bind_eq_ok`: a sequence succeeds when both of its parts do.
* `Outcome.mapM_eq_ok`: a list is mapped when each of its members is.
* `Outcome.exists_of_foldlM_error`: a fold fails at one of the members.
* `Outcome.run_bind`: a sequence that works on a state.
* `Outcome.Faults`: all faults of a computation have a property.
-/

namespace Unscript.Outcome

variable {ε α β : Type}

/-- A sequence of computations succeeds when both do. -/
theorem bind_eq_ok {x : Except ε α} {f : α → Except ε β} {b : β} :
    (x >>= f) = .ok b ↔ ∃ a, x = .ok a ∧ f a = .ok b := by
  cases x with
  | error e => simp [bind, Except.bind]
  | ok a => simp [bind, Except.bind]

/-- A sequence of computations can succeed when both can. -/
theorem exists_bind_eq_ok {x : Except ε α} {f : α → Except ε β} :
    (∃ b, (x >>= f) = .ok b) ↔ ∃ a, x = .ok a ∧ ∃ b, f a = .ok b := by
  simp only [bind_eq_ok]
  constructor
  · rintro ⟨b, a, ha, hb⟩
    exact ⟨a, ha, b, hb⟩
  · rintro ⟨a, ha, b, hb⟩
    exact ⟨b, a, ha, hb⟩

/-- A sequence that works on a state: its second part goes on from what the first one leaves. -/
theorem run_bind {σ : Type} (m : ExceptT ε (StateM σ) α) (k : α → ExceptT ε (StateM σ) β) (s : σ) :
    (m >>= k).run.run s =
      match m.run.run s with
      | (.ok a, s') => (k a).run.run s'
      | (.error e, s') => (.error e, s') := by
  rw [ExceptT.run_bind, StateT.run_bind]
  generalize m.run.run s = result
  obtain ⟨r, s'⟩ := result
  cases r <;> rfl

theorem run_get {σ : Type} (s : σ) : (get : ExceptT ε (StateM σ) σ).run.run s = (.ok s, s) :=
  rfl

/-- The result of a computation that succeeds. -/
theorem toOption_eq_some {x : Except ε α} {a : α} : x.toOption = some a ↔ x = .ok a := by
  cases x <;> simp [Except.toOption]

/-- A list is mapped to the list of the images of its members. -/
theorem mapM_eq_ok {f : α → Except ε β} {as : List α} {bs : List β} :
    as.mapM f = .ok bs ↔ List.Forall₂ (fun a b => f a = .ok b) as bs := by
  induction as generalizing bs with
  | nil =>
    rw [List.mapM_nil, List.forall₂_nil_left_iff]
    simp [pure, Except.pure, eq_comm]
  | cons a as ih =>
    rw [List.mapM_cons, bind_eq_ok, List.forall₂_cons_left_iff]
    simp only [bind_eq_ok, ih]
    constructor
    · rintro ⟨b, hb, rest, hrest, h⟩
      cases h
      exact ⟨b, rest, hb, hrest, rfl⟩
    · rintro ⟨b, rest, hb, hrest, rfl⟩
      exact ⟨b, hb, rest, hrest, rfl⟩

/-! ## Lists member by member -/

section Members

variable {γ : Type} {R : α → β → Prop} {as : List α} {bs : List β}

theorem map_eq_of_forall₂ (h : List.Forall₂ R as bs) {k : α → γ} {g : β → γ}
    (hf : ∀ {a b}, R a b → g b = k a) : bs.map g = as.map k := by
  induction h with
  | nil => rfl
  | cons hab _ ih => rw [List.map_cons, List.map_cons, hf hab, ih]

theorem exists_of_mem_right (h : List.Forall₂ R as bs) {b : β} (hb : b ∈ bs) : ∃ a ∈ as, R a b := by
  induction h with
  | nil => cases hb
  | cons hab _ ih =>
    rcases List.mem_cons.mp hb with rfl | hb
    · exact ⟨_, List.mem_cons_self, hab⟩
    · obtain ⟨a, ha, hR⟩ := ih hb
      exact ⟨a, List.mem_cons_of_mem _ ha, hR⟩

theorem exists_of_mem_left (h : List.Forall₂ R as bs) {a : α} (ha : a ∈ as) : ∃ b ∈ bs, R a b :=
  exists_of_mem_right h.flip ha

theorem exists_append_of_forall₂ {as' : List α} (h : List.Forall₂ R (as ++ as') bs) :
    ∃ bs₁ bs₂, bs = bs₁ ++ bs₂ ∧ List.Forall₂ R as bs₁ ∧ List.Forall₂ R as' bs₂ := by
  induction as generalizing bs with
  | nil => exact ⟨[], bs, rfl, .nil, h⟩
  | cons a as ih =>
    obtain ⟨b, rest, hab, hrest, rfl⟩ := List.forall₂_cons_left_iff.mp h
    obtain ⟨bs₁, bs₂, rfl, h₁, h₂⟩ := ih hrest
    exact ⟨b :: bs₁, bs₂, rfl, .cons hab h₁, h₂⟩

/-- A member that is paired with the image of another one is so where the other one is. -/
theorem exists_of_mem_zip {keys : List γ} (h : List.Forall₂ R as bs) {k : γ} {b : β}
    (hb : (k, b) ∈ keys.zip bs) : ∃ a, (k, a) ∈ keys.zip as ∧ R a b := by
  induction h generalizing keys with
  | nil => simp at hb
  | @cons a _ _ _ hab _ ih =>
    cases keys with
    | nil => cases hb
    | cons k' keys =>
      rw [List.zip_cons_cons] at hb ⊢
      rcases List.mem_cons.mp hb with heq | hb
      · cases heq
        exact ⟨a, List.mem_cons_self, hab⟩
      · obtain ⟨a', ha', hR⟩ := ih hb
        exact ⟨a', List.mem_cons_of_mem _ ha', hR⟩

/-- Members that are related through a third are related through a list of these. -/
theorem exists_between {S : β → γ → Prop} {cs : List γ}
    (h : List.Forall₂ (fun a c => ∃ b, R a b ∧ S b c) as cs) :
    ∃ bs, List.Forall₂ R as bs ∧ List.Forall₂ S bs cs := by
  induction h with
  | nil => exact ⟨[], .nil, .nil⟩
  | cons hac _ ih =>
    obtain ⟨b, hR, hS⟩ := hac
    obtain ⟨bs, hbs, hcs⟩ := ih
    exact ⟨b :: bs, .cons hR hbs, .cons hS hcs⟩

end Members

/-- What an image keeps of its member is kept along the list. -/
theorem map_of_mapM {γ : Type} {f : α → Except ε β} {as : List α} {bs : List β}
    (h : as.mapM f = .ok bs) {k : α → γ} {g : β → γ} (hf : ∀ {a b}, f a = .ok b → g b = k a) :
    bs.map g = as.map k := by
  rw [mapM_eq_ok] at h
  exact map_eq_of_forall₂ h hf

/-- Every image has a member that it is the image of. -/
theorem exists_of_mem_mapM {f : α → Except ε β} {as : List α} {bs : List β}
    (h : as.mapM f = .ok bs) {b : β} (hb : b ∈ bs) : ∃ a ∈ as, f a = .ok b := by
  rw [mapM_eq_ok] at h
  exact exists_of_mem_right h hb

/-- Every member has an image. -/
theorem exists_mem_mapM {f : α → Except ε β} {as : List α} {bs : List β}
    (h : as.mapM f = .ok bs) {a : α} (ha : a ∈ as) : ∃ b ∈ bs, f a = .ok b := by
  rw [mapM_eq_ok] at h
  exact exists_of_mem_left h ha

/-- A fold that succeeds is the fold of what its steps give when they succeed. -/
theorem eq_foldl_of_foldlM {f : β → α → Except ε β} {g : β → α → β} {as : List α} {b b' : β}
    (h : as.foldlM f b = .ok b') (hf : ∀ {b a b'}, f b a = .ok b' → b' = g b a) :
    b' = as.foldl g b := by
  induction as generalizing b with
  | nil =>
    cases h
    rfl
  | cons a as ih =>
    rw [List.foldlM_cons, bind_eq_ok] at h
    obtain ⟨b₁, hb₁, h⟩ := h
    rw [List.foldl_cons, ← hf hb₁]
    exact ih h

/-- A fold that succeeds keeps what its steps keep when they succeed. -/
theorem foldlM_preserves {P : β → Prop} {f : β → α → Except ε β} {as : List α} {b b' : β}
    (h : as.foldlM f b = .ok b') (hb : P b) (hf : ∀ {b a b'}, f b a = .ok b' → P b → P b') : P b' := by
  induction as generalizing b with
  | nil =>
    cases h
    exact hb
  | cons a as ih =>
    rw [List.foldlM_cons, bind_eq_ok] at h
    obtain ⟨b₁, hb₁, h⟩ := h
    exact ih h (hf hb₁ hb)

/-- A list can be mapped when each of its members can. -/
theorem exists_mapM_ok {f : α → Except ε β} {as : List α} (h : ∀ a ∈ as, ∃ b, f a = .ok b) :
    ∃ bs, as.mapM f = .ok bs := by
  induction as with
  | nil => exact ⟨[], rfl⟩
  | cons a as ih =>
    obtain ⟨b, hb⟩ := h a List.mem_cons_self
    obtain ⟨bs, hbs⟩ := ih fun a ha => h a (List.mem_cons_of_mem _ ha)
    refine ⟨b :: bs, ?_⟩
    rw [mapM_eq_ok] at hbs ⊢
    exact .cons hb hbs

/-- A fold fails at one of the members. -/
theorem exists_of_foldlM_error {f : β → α → Except ε β} {as : List α} {b : β} {e : ε}
    (h : as.foldlM f b = .error e) : ∃ a ∈ as, ∃ b, f b a = .error e := by
  induction as generalizing b with
  | nil => cases h
  | cons a as ih =>
    rw [List.foldlM_cons] at h
    cases hstep : f b a with
    | error e' =>
      rw [hstep] at h
      cases h
      exact ⟨a, List.mem_cons_self, b, hstep⟩
    | ok b' =>
      rw [hstep] at h
      obtain ⟨a', ha', hb⟩ := ih h
      exact ⟨a', List.mem_cons_of_mem _ ha', hb⟩

/-! ## Deciding -/

instance decidableEqError [DecidableEq ε] (x : Except ε α) (e : ε) : Decidable (x = .error e) :=
  match x with
  | .ok _ => isFalse nofun
  | .error e' => decidable_of_iff (e' = e) ⟨congrArg _, Except.error.inj⟩

instance decidableForallOk (x : Except ε α) (P : α → Prop) [DecidablePred P] :
    Decidable (∀ a, x = .ok a → P a) :=
  match x with
  | .ok a => decidable_of_iff (P a) ⟨fun h _ ha => Except.ok.inj ha ▸ h, fun h => h a rfl⟩
  | .error _ => isTrue nofun

/-! ## Faults -/

/-- A computation all of whose faults have a property. -/
def Faults (P : ε → Prop) (x : Except ε α) : Prop :=
  ∀ e, x = .error e → P e

section Faults

variable {P : ε → Prop} {x : Except ε α} {f : α → Except ε β}

theorem faults_ok (a : α) : Faults P (.ok a) :=
  fun _ h => nomatch h

theorem faults_error {e : ε} (h : P e) : Faults (α := α) P (.error e) :=
  fun _ he => Except.error.inj he ▸ h

theorem Faults.bind (hx : Faults P x) (hf : ∀ a, Faults P (f a)) : Faults P (x >>= f) := by
  cases x with
  | error e => exact faults_error (hx e rfl)
  | ok a => exact hf a

theorem faults_mapM {as : List α} (h : ∀ a ∈ as, Faults P (f a)) : Faults P (as.mapM f) := by
  induction as with
  | nil => exact faults_ok _
  | cons a as ih =>
    rw [List.mapM_cons]
    refine (h a List.mem_cons_self).bind fun b => ?_
    exact (ih fun a ha => h a (List.mem_cons_of_mem _ ha)).bind fun bs => faults_ok _

end Faults

end Unscript.Outcome
