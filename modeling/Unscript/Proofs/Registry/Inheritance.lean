import Unscript.Proofs.Registry.Changes
import Unscript.Proofs.Registry.Known
import Mathlib.Logic.Relation
import Mathlib.Data.List.Forall2

/-!
# What a dialect inherits

A registry that data resolves to holds one dialect for every entry. It is what the changes along its
way from a root make, whatever order the entries stand in, and further entries leave it as it is.
Data whose entries are based on each other in a circle, or on entries that are not there, resolve to
no registry.

* `Registry.EncodedAs`: the tables of a dialect are those of an era.
* `Registry.Descendant`: a dialect is what its way from a root makes of it.
* `Registry.Circular`, `Registry.Dangling`: entries without such a way.

Results:
* `Registry.ofSource_inherits`: the dialects of a registry are what their ways make of them, in any
  order of the entries.
* `Registry.extend_conservative`: further entries leave the dialects of a registry as they are.
-/

namespace Unscript.Registry

variable {ops : List Operation} {eras : List EraEntry} {known : List String}
  {encodings : List Encoding} {entries : List Named} {es es' more : List Entry} {src : Source}
  {r : Registry} {d : Dialect} {ds : List Dialect} {build : Named → State → Resolved Dialect}
  {id base : String}

/-! ## Dialects of their ways -/

/-- The tables of a dialect are those of an era. -/
structure EncodedAs (ops : List Operation) (era : EraEntry) (d : Dialect) : Prop where
  opcodes : ∃ enc, encoding ops era = .ok enc ∧ d.opcodes = enc.opcodes ∧
    d.widths.opcode = enc.widths.opcode ∧ d.widths.operand = enc.widths.operand
  tags : era.tags = some d.constants.tags
  constants : ∃ table, era.constants = some table ∧
    requiredCount table "int_width" = .ok d.constants.intWidth ∧
    requiredCount table "float_width" = .ok d.constants.floatWidth
  lineWidth : countValue era.lineWidth = .ok d.lineWidth

/-- A dialect is what its way from a root makes of it, encoded as the era it ends in. -/
structure Descendant (ops : List Operation) (eras : List EraEntry) (entries : List Named)
    (d : Dialect) : Prop where
  way : ∃ way, Descends entries d.id way ∧ Inherits eras way ⟨d.era, d.builtins, d.features⟩
  encoding : ∃ era, eraNamed? eras d.era = some era ∧ EncodedAs ops era d

/-- What a dialect takes from its state and from its encoding. -/
theorem encodedAs_of_dialect {gates : List (String × String)} {named : Named} {s : State}
    {enc : Encoding} (henc : encoding ops enc.era = .ok enc)
    (h : dialect gates named s enc = .ok d) : EncodedAs ops enc.era d ∧ d.id = named.1 ∧
      d.era = enc.era.name ∧ d.builtins = s.builtins ∧ d.features = s.features.mergeSort (· ≤ ·) := by
  obtain ⟨table, htable, h⟩ := Outcome.bind_eq_ok.mp h
  obtain ⟨tags, htags, h⟩ := Outcome.bind_eq_ok.mp h
  split at h
  · cases h
  · obtain ⟨_, -, h⟩ := Outcome.bind_eq_ok.mp h
    obtain ⟨_, -, h⟩ := Outcome.bind_eq_ok.mp h
    obtain ⟨_, -, h⟩ := Outcome.bind_eq_ok.mp h
    obtain ⟨_, -, h⟩ := Outcome.bind_eq_ok.mp h
    obtain ⟨_, -, h⟩ := Outcome.bind_eq_ok.mp h
    obtain ⟨_, hint, h⟩ := Outcome.bind_eq_ok.mp h
    obtain ⟨_, hfloat, h⟩ := Outcome.bind_eq_ok.mp h
    obtain ⟨_, hline, h⟩ := Outcome.bind_eq_ok.mp h
    cases h
    exact ⟨⟨⟨enc, henc, rfl, rfl, rfl⟩, require_eq_ok.mp htags,
      ⟨table, require_eq_ok.mp htable, hint, hfloat⟩, hline⟩, rfl, rfl, rfl, rfl⟩

/-- An encoding that is found by the name of its era is that of the first era of the name. -/
theorem eraNamed?_of_find? {name : String} {enc : Encoding}
    (hencodings : eras.mapM (encoding ops) = .ok encodings)
    (hfind : encodings.find? (·.era.name == name) = some enc) :
    eraNamed? eras name = some enc.era ∧ encoding ops enc.era = .ok enc := by
  unfold eraNamed?
  induction Outcome.mapM_eq_ok.mp hencodings with
  | nil => cases hfind
  | @cons era enc' eras encodings henc hrest ih =>
    obtain ⟨hera, -, -⟩ := encoding_ok henc
    rw [List.find?_cons] at hfind ⊢
    rw [← hera]
    split at hfind
    · cases hfind
      exact ⟨rfl, hera ▸ henc⟩
    · exact ih (Outcome.mapM_eq_ok.mpr hrest) hfind

/-- A dialect that is built for an entry is what its way makes of it. -/
theorem descendant_of_resolves {gates : List (String × String)} {named : Named}
    (hencodings : eras.mapM (encoding ops) = .ok encodings)
    (h : Resolves eras known entries (dialectIn gates encodings) named d) :
    Descendant ops eras entries d := by
  obtain ⟨s, ⟨way, hway, hs⟩, hd⟩ := h
  obtain ⟨enc, hfind, hd⟩ := dialectIn_eq_ok.mp hd
  obtain ⟨hnamed, henc⟩ := eraNamed?_of_find? hencodings hfind
  obtain ⟨hencoded, hid, hera, hbuiltins, hfeatures⟩ := encodedAs_of_dialect henc hd
  have hname : enc.era.name = s.era := by simpa using List.find?_some hfind
  have hstate := inherits_of_descends hway hs
  have hperm : d.features.Perm s.features := hfeatures ▸ List.mergeSort_perm _ _
  refine ⟨⟨way, hid ▸ hway, ?_⟩, enc.era, by rwa [hera, hname], hencoded⟩
  refine ⟨?_, ?_, ?_, hperm.nodup_iff.mpr hstate.nodup⟩
  · rw [hera, hname, hstate.era]
  · rw [hbuiltins]
    exact hstate.builtins
  · exact (List.toFinset_eq_of_perm _ _ hperm).trans hstate.features

/-! ## Circles and missing bases -/

/-- An entry with an id is based on another id. -/
def BasedOn (es : List Entry) (id base : String) : Prop :=
  ∃ e ∈ es, (∃ key, e.commit = some key ∧ idOf key = .ok id) ∧
    ∃ key, e.base = some key ∧ idOf key = .ok base

/-- From base to base, a way comes back to where it started. -/
def Circular (es : List Entry) : Prop :=
  ∃ id, Relation.TransGen (BasedOn es) id id

/-- The base of an entry spells the id of none. -/
def Dangling (es : List Entry) : Prop :=
  ∃ e ∈ es, ∃ key, e.base = some key ∧ ∀ id, idOf key = .ok id →
    ∀ e' ∈ es, ∀ commit, e'.commit = some commit → idOf commit ≠ .ok id

/-- Entries that all descend from roots. -/
structure Grounded (es : List Entry) (entries : List Named) : Prop where
  names : List.Forall₂ Names es entries
  ids : (entries.map (·.1)).Nodup
  descends : ∀ named ∈ entries, ∃ way, Descends entries named.1 way

/-- The way to an entry is longer than that to its base. -/
theorem Grounded.exists_lt (h : Grounded es entries) (hbased : BasedOn es id base) :
    ∃ way before, Descends entries id way ∧ Descends entries base before ∧
      before.length < way.length := by
  obtain ⟨e, he, ⟨commit, hcommit, hid⟩, key, hkey, hbase⟩ := hbased
  obtain ⟨named, hnamed, rfl, commit', hcommit', hid'⟩ := Outcome.exists_of_mem_left h.names he
  cases hcommit.symm.trans hcommit'
  cases hid.symm.trans hid'
  obtain ⟨way, hway⟩ := h.descends named hnamed
  obtain ⟨last, hlast, hlastId, ⟨hroot, -⟩ | ⟨key', base', before, hkey', hbase', hbefore, rfl⟩⟩ :=
    hway.exists_last
  · cases eq_of_id h.ids hlast hnamed hlastId
    cases hkey.symm.trans hroot
  · cases eq_of_id h.ids hlast hnamed hlastId
    cases hkey.symm.trans hkey'
    cases hbase.symm.trans hbase'
    exact ⟨_, before, hway, hbefore, by simp⟩

theorem Grounded.not_circular (h : Grounded es entries) : ¬ Circular es := by
  rintro ⟨start, hcircle⟩
  have hlt : ∀ {a b}, Relation.TransGen (BasedOn es) a b → ∃ way before, Descends entries a way ∧
      Descends entries b before ∧ before.length < way.length := by
    intro a b hab
    induction hab with
    | single hbased => exact h.exists_lt hbased
    | tail _ hbased ih =>
      obtain ⟨way, middle, hway, hmiddle, hlt⟩ := ih
      obtain ⟨middle', before, hmiddle', hbefore, hlt'⟩ := h.exists_lt hbased
      cases hmiddle.unique h.ids hmiddle'
      exact ⟨way, before, hway, hbefore, hlt'.trans hlt⟩
  obtain ⟨way, before, hway, hbefore, hlt⟩ := hlt hcircle
  cases hway.unique h.ids hbefore
  exact lt_irrefl _ hlt

theorem Grounded.not_dangling (h : Grounded es entries) : ¬ Dangling es := by
  rintro ⟨e, he, key, hkey, hmissing⟩
  obtain ⟨named, hnamed, rfl, -⟩ := Outcome.exists_of_mem_left h.names he
  obtain ⟨way, hway⟩ := h.descends named hnamed
  obtain ⟨last, hlast, hid, ⟨hroot, -⟩ | ⟨key', base, before, hkey', hbase, hbefore, -⟩⟩ :=
    hway.exists_last
  · cases eq_of_id h.ids hlast hnamed hid
    cases hkey.symm.trans hroot
  · cases eq_of_id h.ids hlast hnamed hid
    cases hkey.symm.trans hkey'
    obtain ⟨last', hlast', rfl, -⟩ := hbefore.exists_last
    obtain ⟨e', he', rfl, commit, hcommit, hcommitId⟩ := Outcome.exists_of_mem_right h.names hlast'
    exact hmissing _ hbase _ he' _ hcommit hcommitId

/-! ## The order of the entries -/

theorem Names.rightUnique : Relator.RightUnique Names := by
  rintro e ⟨id, _⟩ ⟨id', _⟩ ⟨rfl, key, hkey, hid⟩ ⟨rfl, key', hkey', hid'⟩
  cases hkey.symm.trans hkey'
  cases hid.symm.trans hid'
  rfl

theorem Resolves.mono {entries' : List Named} {named : Named}
    (h : Resolves eras known entries build named d) (hsub : entries ⊆ entries') :
    Resolves eras known entries' build named d :=
  h.imp fun _ hs => ⟨hs.1.mono hsub, hs.2⟩

theorem Resolves.rightUnique (hids : (entries.map (·.1)).Nodup) :
    Relator.RightUnique (Resolves eras known entries build) := by
  rintro named d d' ⟨s, hs, hd⟩ ⟨s', hs', hd'⟩
  cases hs.unique hids hs'
  cases hd.symm.trans hd'
  rfl

theorem Resolves.id_eq {gates : List (String × String)} {named : Named}
    (h : Resolves eras known entries (dialectIn gates encodings) named d) : d.id = named.1 := by
  obtain ⟨s, -, hd⟩ := h
  obtain ⟨enc, -, hd⟩ := dialectIn_eq_ok.mp hd
  exact (dialect_ok hd).1

/-- The frame does not depend on the entries. -/
theorem Frame.withEntries (h : Frame src ops known eras encodings) (o : Option (List Entry)) :
    Frame { src with entries := o } ops known eras encodings :=
  ⟨h.ofOperations, h.ofFeatures, h.ofGates, h.ofEras, h.ofEncodings⟩

/-- **Order.** In another order the entries become the same dialects. -/
theorem exists_ofSource_perm (h : ofSource src = .ok r) (hes : src.entries = some es)
    (hperm : es'.Perm es) : ∃ r', ofSource { src with entries := some es' } = .ok r' ∧
      r'.dialects.Perm r.dialects ∧ ∀ id, r'.withId? id = r.withId? id := by
  obtain ⟨ops, known, eras, encodings, es₀, entries, hframe, hes₀, hnames, hds⟩ :=
    resolveAll_eq_ok.mp (ofSource_ok h).2
  cases hes.symm.trans hes₀
  obtain ⟨hnames, hids⟩ := nameEntries_eq_ok.mp hnames
  obtain ⟨entries', hnames', hentries⟩ := List.perm_comp_forall₂ hperm hnames
  obtain ⟨ds', hds', hdialects⟩ := List.perm_comp_forall₂ hentries hds
  have hids' : (entries'.map (·.1)).Nodup := (hentries.map _).nodup_iff.mpr hids
  have hr' : ofSource { src with entries := some es' } =
      .ok ⟨{ src with entries := some es' }, ds'⟩ :=
    Outcome.bind_eq_ok.mpr ⟨ds', resolveAll_eq_ok.mpr ⟨ops, known, eras, encodings, es', entries',
      hframe.withEntries _, rfl, nameEntries_eq_ok.mpr ⟨hnames', hids'⟩,
      hds'.imp fun _ _ hd => hd.mono hentries.symm.subset⟩, rfl⟩
  refine ⟨_, hr', hdialects, fun id => Option.ext fun d => ?_⟩
  rw [withId?_eq_some (nodup_ids hr'), withId?_eq_some (nodup_ids h), hdialects.mem_iff]

/-- **Inheritance.** A registry that data resolves to has one dialect for every entry. Its era, its
builtin functions and its features are what the changes along its way from a root make, and its
tables are those of its era; in any other order the entries become the same dialects. Entries that
are based on each other in a circle, or on none that is there, resolve to a fault. -/
theorem ofSource_inherits (src : Source) :
    (∀ r, ofSource src = .ok r → ∃ operations ops eras es entries,
      src.operations = some operations ∧ operations.mapM operation = .ok ops ∧
      src.eras = some eras ∧ src.entries = some es ∧ List.Forall₂ Names es entries ∧
      r.ids = entries.map (·.1) ∧ r.ids.Nodup ∧
      (∀ d ∈ r.dialects, Descendant ops eras entries d) ∧
      ∀ es', es'.Perm es → ∃ r', ofSource { src with entries := some es' } = .ok r' ∧
        r'.dialects.Perm r.dialects ∧ ∀ id, r'.withId? id = r.withId? id) ∧
    ∀ es, src.entries = some es → Circular es ∨ Dangling es → ∃ fault, ofSource src = .error fault := by
  constructor
  · intro r h
    obtain ⟨ops, known, eras, encodings, es, entries, hframe, hes, hnames, hds⟩ :=
      resolveAll_eq_ok.mp (ofSource_ok h).2
    obtain ⟨operations, hoperations, hops⟩ := hframe.ofOperations
    obtain ⟨hnames, hids⟩ := nameEntries_eq_ok.mp hnames
    refine ⟨operations, ops, eras, es, entries, hoperations, hops, hframe.ofEras, hes, hnames, ?_,
      nodup_ids h, ?_, fun es' hperm => exists_ofSource_perm h hes hperm⟩
    · exact Outcome.map_eq_of_forall₂ hds fun hd => hd.id_eq
    · intro d hd
      obtain ⟨named, -, hnamed⟩ := Outcome.exists_of_mem_right hds hd
      exact descendant_of_resolves hframe.ofEncodings hnamed
  · intro es hes hbad
    cases h : ofSource src with
    | error fault => exact ⟨fault, rfl⟩
    | ok r =>
      obtain ⟨ops, known, eras, encodings, es₀, entries, -, hes₀, hnames, hds⟩ :=
        resolveAll_eq_ok.mp (ofSource_ok h).2
      cases hes.symm.trans hes₀
      obtain ⟨hnames, hids⟩ := nameEntries_eq_ok.mp hnames
      have hgrounded : Grounded es entries := by
        refine ⟨hnames, hids, fun named hnamed => ?_⟩
        obtain ⟨d, -, s, ⟨way, hway, -⟩, -⟩ := Outcome.exists_of_mem_left hds hnamed
        exact ⟨way, hway⟩
      exact (hbad.elim hgrounded.not_circular hgrounded.not_dangling).elim

/-- Two entries, the first based on the second, which changes the era and a name. -/
def sampleSource : Source where
  operations := some []
  features := some ["signal", "yield"]
  gates := []
  eras := some [{ firstEra with opcodes := some [], builtins := ["sin", "cos"] },
    { secondEra with opcodes := some [] }]
  entries := some [
    based "0b806ee" "8c1731b" "" "" 2 "" ⟨["sin"], [("cos", "cosine")], [⟨some "tan", none⟩]⟩
      ["signal"] ["yield"] (some "gd2"),
    root "gd1" "0b806ee" "" "" 1 "" ["yield"]]

theorem ofSource_inherits_sample :
    (∃ r, ofSource sampleSource = .ok r ∧ r.ids = ["8c1731b", "0b806ee"] ∧
      ∀ d ∈ r.dialects, ∃ ops eras entries, Descendant ops eras entries d) ∧
    ∃ fault, ofSource (sampleSource.extend [based "0000001" "0000001" "" "" 1 ""]) = .error fault := by
  constructor
  · have hids : (ofSource sampleSource).toOption.map ids = some ["8c1731b", "0b806ee"] := by
      decide +kernel
    obtain ⟨r, hr, hids⟩ := Option.map_eq_some_iff.mp hids
    have hr := Outcome.toOption_eq_some.mp hr
    obtain ⟨-, ops, eras, -, entries, -, -, -, -, -, -, -, hd, -⟩ :=
      (ofSource_inherits sampleSource).1 r hr
    exact ⟨r, hr, hids, fun d hmem => ⟨ops, eras, entries, hd d hmem⟩⟩
  · have hid : idOf (.text "0000001") = .ok "0000001" := by decide +kernel
    have hbased : BasedOn ((sampleSource.extend [based "0000001" "0000001" "" "" 1 ""]).entries.getD [])
        "0000001" "0000001" :=
      ⟨based "0000001" "0000001" "" "" 1 "", by simp [sampleSource, Source.extend],
        ⟨_, rfl, hid⟩, _, rfl, hid⟩
    exact (ofSource_inherits _).2 _ rfl (.inl ⟨_, .single hbased⟩)

/-! ## Further entries -/

/-- The frame of data is the only one. -/
theorem Frame.unique {ops' : List Operation} {known' : List String} {eras' : List EraEntry}
    {encodings' : List Encoding} (h : Frame src ops known eras encodings)
    (h' : Frame src ops' known' eras' encodings') :
    known = known' ∧ eras = eras' ∧ encodings = encodings' := by
  obtain ⟨operations, hoperations, hops⟩ := h.ofOperations
  obtain ⟨operations', hoperations', hops'⟩ := h'.ofOperations
  cases hoperations.symm.trans hoperations'
  cases hops.symm.trans hops'
  cases h.ofFeatures.symm.trans h'.ofFeatures
  cases h.ofEras.symm.trans h'.ofEras
  cases h.ofEncodings.symm.trans h'.ofEncodings
  exact ⟨rfl, rfl, rfl⟩

/-- Old entries become the same dialects among new ones, and these follow behind. -/
theorem exists_extend {r' : Registry} (h : ofSource src = .ok r) (h' : r.extend more = .ok r') :
    ∃ new, r'.dialects = r.dialects ++ new ∧
      List.Forall₂ (fun e id => ∃ key, e.commit = some key ∧ idOf key = .ok id) more
        (new.map (·.id)) := by
  unfold extend at h'
  rw [(ofSource_ok h).1] at h'
  obtain ⟨ops, known, eras, encodings, es, entries, hframe, hes, hnames, hds⟩ :=
    resolveAll_eq_ok.mp (ofSource_ok h).2
  obtain ⟨ops', known', eras', encodings', es', entries', hframe', hes', hnames', hds'⟩ :=
    resolveAll_eq_ok.mp (ofSource_ok h').2
  obtain ⟨rfl, rfl, rfl⟩ := (hframe.withEntries _).unique hframe'
  obtain rfl : es ++ more = es' := by
    simpa [Source.extend, hes] using hes'
  obtain ⟨hnames, -⟩ := nameEntries_eq_ok.mp hnames
  obtain ⟨hnames', hids'⟩ := nameEntries_eq_ok.mp hnames'
  obtain ⟨old, added, rfl, hold, hadded⟩ := Outcome.exists_append_of_forall₂ hnames'
  obtain rfl := List.right_unique_forall₂' Names.rightUnique hnames hold
  obtain ⟨olds, news, hdialects, holds, hnews⟩ := Outcome.exists_append_of_forall₂ hds'
  have hsame : List.Forall₂ (Resolves eras known (entries ++ added) (dialectIn src.gates encodings))
      entries r.dialects :=
    hds.imp fun _ _ hd => hd.mono (List.subset_append_left _ _)
  obtain rfl := List.right_unique_forall₂' (Resolves.rightUnique hids') hsame holds
  refine ⟨news, hdialects, ?_⟩
  rw [Outcome.map_eq_of_forall₂ hnews fun hd => hd.id_eq, List.forall₂_map_right_iff]
  exact hadded.imp fun _ _ hnamed => hnamed.2

/-- **Further entries** leave a registry as it is. Its dialects keep their places, the new ones stand
behind them in order, and every key that finds a dialect finds the same one. Other keys find what they
found, unless they are the key of a new dialect. -/
theorem extend_conservative {r' : Registry} (h : ofSource src = .ok r)
    (h' : r.extend more = .ok r') : ∃ new, r'.dialects = r.dialects ++ new ∧
      r'.ids = r.ids ++ new.map (·.id) ∧ r'.ids.Nodup ∧
      List.Forall₂ (fun e id => ∃ key, e.commit = some key ∧ idOf key = .ok id) more
        (new.map (·.id)) ∧
      (∀ key d, r.lookup? key = .ok (some d) → r'.lookup? key = .ok (some d)) ∧
      ∀ key, (∀ d ∈ new, key.id ≠ .ok d.id) → r'.lookup? key = r.lookup? key := by
  obtain ⟨new, hdialects, hnew⟩ := exists_extend h h'
  have hwithId : ∀ id, r'.withId? id = (r.withId? id).or (new.find? (·.id == id)) := by
    intro id
    unfold withId?
    rw [hdialects, List.find?_append]
  refine ⟨new, hdialects, ?_, nodup_ids h', hnew, ?_, ?_⟩
  · unfold ids
    rw [hdialects, List.map_append]
  · intro key d hd
    unfold lookup? at hd ⊢
    cases hkey : key.id with
    | error e =>
      rw [hkey] at hd
      cases hd
    | ok id =>
      rw [hkey] at hd
      simp only [Except.map, Except.ok.injEq] at hd ⊢
      rw [hwithId, hd, Option.some_or]
  · intro key hmissing
    unfold lookup?
    cases hkey : key.id with
    | error e => rfl
    | ok id =>
      have hnone : new.find? (·.id == id) = none :=
        List.find?_eq_none.mpr fun d hd heq => hmissing d hd (by rw [hkey, beq_iff_eq.mp heq])
      simp only [Except.map]
      rw [hwithId, hnone, Option.or_none]

theorem extend_conservative_sample :
    ∃ r r', ofSource sampleSource = .ok r ∧
      r.extend [based "8c1731b" "703004f" "" "" 3 ""] = .ok r' ∧
      r'.ids = ["8c1731b", "0b806ee", "703004f"] ∧
      ∀ key d, r.lookup? key = .ok (some d) → r'.lookup? key = .ok (some d) := by
  have hids : ((ofSource sampleSource).toOption.bind fun r =>
      (r.extend [based "8c1731b" "703004f" "" "" 3 ""]).toOption.map ids) =
        some ["8c1731b", "0b806ee", "703004f"] := by
    decide +kernel
  obtain ⟨r, hr, hids⟩ := Option.bind_eq_some_iff.mp hids
  obtain ⟨r', hr', hids⟩ := Option.map_eq_some_iff.mp hids
  have hr := Outcome.toOption_eq_some.mp hr
  have hr' := Outcome.toOption_eq_some.mp hr'
  obtain ⟨-, -, -, -, -, hkeys, -⟩ := extend_conservative hr hr'
  exact ⟨r, r', hr, hr', hids, hkeys⟩

end Unscript.Registry
