import Unscript.Proofs.Registry.Entries
import Unscript.Registry.Standard

/-!
# What is known of the registered dialects

The dialects of the standard registry, and those of further entries added to it, are encoded as one
of the four eras says. An era numbers each of its operations once, and its tags are those of the
kinds of constants.

* `Dialect.Registered`: the dialects of the standard registry with any further entries.
* `Dialect.Regular`: numbering and tags can be turned around.

Results:
* `Registry.numberOperations_ok`: a numbering that is accepted numbers no mnemonic twice.
* `Registry.nodup_ids`: no two dialects of a registry have the same id.
* `Dialect.registered_of_mem`: the dialects of the standard registry are registered.
* `Dialect.Registered.regular`: registered dialects are regular.
* `Dialect.Registered.countWidth_le`: counts take at most four bytes in them.
-/

namespace Unscript

namespace Registry

/-! ## Numberings -/

/-- The operations of a numbering are operations of the data, no two with the same mnemonic. -/
structure Numbering (ops : List Operation) (opcodes : List (Option Operation)) : Prop where
  known : ∀ op, some op ∈ opcodes → op ∈ ops
  once : opcodes.Pairwise fun a b => ∀ op, b = some op → Dialect.hasMnemonic op.mnemonic a = false

theorem numberOperations_ok {era : String} {ops : List Operation}
    {numbered opcodes : List (Option Operation)} {names : List (Option String)}
    (h : numberOperations era ops numbered names = .ok opcodes)
    (hnum : Numbering ops numbered.reverse) : Numbering ops opcodes := by
  induction names generalizing numbered with
  | nil =>
    cases h
    exact hnum
  | cons name rest ih =>
    cases name with
    | none =>
      refine ih h ⟨?_, ?_⟩
      · intro op hop
        rw [List.reverse_cons, List.mem_append, List.mem_singleton] at hop
        rcases hop with hop | hop
        · exact hnum.known op hop
        · cases hop
      · rw [List.reverse_cons, List.pairwise_append]
        refine ⟨hnum.once, List.pairwise_singleton _ _, ?_⟩
        intro a _ b hb op hop
        rw [List.mem_singleton.mp hb] at hop
        cases hop
    | some m =>
      unfold numberOperations at h
      split at h
      · cases h
      · rename_i op hop
        split at h
        · cases h
        · rename_i hnew
          have hm : op.mnemonic = m := by simpa using List.find?_some hop
          refine ih h ⟨?_, ?_⟩
          · intro op' hop'
            rw [List.reverse_cons, List.mem_append, List.mem_singleton] at hop'
            rcases hop' with hop' | hop'
            · exact hnum.known op' hop'
            · cases hop'
              exact List.mem_of_find?_eq_some hop
          · rw [List.reverse_cons, List.pairwise_append]
            refine ⟨hnum.once, List.pairwise_singleton _ _, ?_⟩
            intro a ha b hb op' hop'
            rw [List.mem_singleton.mp hb] at hop'
            cases hop'
            rw [hm, ← Bool.not_eq_true]
            exact fun hma => hnew (List.any_eq_true.mpr ⟨a, List.mem_reverse.mp ha, hma⟩)

/-- A numbered operation is the first one with its mnemonic. -/
theorem Numbering.findIdx? {ops : List Operation} {opcodes : List (Option Operation)}
    (h : Numbering ops opcodes) {code : Nat} {op : Operation}
    (hop : opcodes[code]? = some (some op)) :
    opcodes.findIdx? (Dialect.hasMnemonic op.mnemonic) = some code := by
  obtain ⟨hlt, hget⟩ := List.getElem?_eq_some_iff.mp hop
  rw [List.findIdx?_eq_some_iff_getElem]
  refine ⟨hlt, ?_, ?_⟩
  · rw [hget]
    exact beq_self_eq_true _
  · intro j hj
    have := (List.pairwise_iff_getElem.mp h.once) j code (by omega) hlt hj op hget
    rw [this]
    exact Bool.false_ne_true

/-! ## The eras -/

/-- The eras of the standard data. -/
def knownEras : List EraEntry :=
  [firstEra, secondEra, thirdEra, fourthEra]

/-- The operations of the standard data. -/
def knownOperations : List Operation :=
  match standardOperations.mapM operation with
  | .ok ops => ops
  | .error _ => []

/-- Whether every tag is that of a kind of constants, which has no other. -/
def tagsOnce (tags : List (String × Int)) : Bool :=
  tags.all fun t => (ConstantKind.ofText? t.1).isSome && tags.lookup t.1 == some t.2

theorem tagsOnce_numberedTags (resource subscript : Int) :
    tagsOnce (numberedTags resource subscript) := by
  simp [tagsOnce, numberedTags, List.lookup_cons, ConstantKind.ofText?, ConstantKind.all,
    ConstantKind.text]

theorem tagsOnce_of_mem {e : EraEntry} (h : e ∈ knownEras) : e.tags.all tagsOnce := by
  simp only [knownEras, List.mem_cons, List.not_mem_nil, or_false] at h
  rcases h with rfl | rfl | rfl | rfl <;> exact tagsOnce_numberedTags _ _

/-- Whether no two kinds have the same tag. -/
def tagsApart (tags : List (String × Int)) : Bool :=
  decide (tags.Pairwise fun a b => a.2 ≠ b.2)

theorem tagsApart_of_mem {e : EraEntry} (h : e ∈ knownEras) : e.tags.all tagsApart := by
  have all : knownEras.all fun e => e.tags.all tagsApart := by decide +kernel
  exact List.all_eq_true.mp all e h

theorem intWidth_pos_of_mem {e : EraEntry} (h : e ∈ knownEras) {table : List (String × Count)}
    (ht : e.constants = some table) {n : Int} (hn : requiredCount table "int_width" = .ok n) :
    0 < n := by
  have all : knownEras.all fun e => e.constants.all fun table =>
      (requiredCount table "int_width").toOption.all (0 < ·) := by decide +kernel
  have hall := List.all_eq_true.mp all e h
  rw [ht] at hall
  simpa [hn, Except.toOption] using hall

theorem countWidth_of_mem {e : EraEntry} (h : e ∈ knownEras) {table : List (String × Count)}
    (ht : e.widths = some table) {w : Widths} (hw : widthsOf e.name table = .ok w) :
    (w.operand .count).bytes ≤ 4 := by
  have all : knownEras.all fun e => e.widths.all fun table =>
      (widthsOf e.name table).toOption.all fun w => (w.operand .count).bytes ≤ 4 := by
    decide +kernel
  have hall := List.all_eq_true.mp all e h
  rw [ht] at hall
  simpa [hw, Except.toOption] using hall

/-- The operations that are resolved are the known ones. -/
theorem eq_knownOperations {ops : List Operation}
    (h : standardOperations.mapM operation = .ok ops) : ops = knownOperations := by
  unfold knownOperations
  rw [h]

/-- What is known of the encoding of an era. -/
theorem encoding_ok {ops : List Operation} {e : EraEntry} {enc : Encoding}
    (h : encoding ops e = .ok enc) : enc.era = e ∧ Numbering ops enc.opcodes ∧
      ∃ table, e.widths = some table ∧ widthsOf e.name table = .ok enc.widths := by
  obtain ⟨names, -, h⟩ := Outcome.bind_eq_ok.mp h
  obtain ⟨opcodes, hopcodes, h⟩ := Outcome.bind_eq_ok.mp h
  obtain ⟨table, htable, h⟩ := Outcome.bind_eq_ok.mp h
  obtain ⟨widths, hwidths, h⟩ := Outcome.bind_eq_ok.mp h
  have hnum := numberOperations_ok hopcodes ⟨by simp, by simp⟩
  have hok : enc = ⟨e, opcodes, widths⟩ := by
    split at h
    · split at h
      · cases h
      · cases h
        rfl
    · cases h
      rfl
  subst hok
  exact ⟨rfl, hnum, table, require_eq_ok.mp htable, hwidths⟩

/-- A registry keeps the data that its dialects were resolved from. -/
theorem ofSource_ok {src : Source} {r : Registry} (h : ofSource src = .ok r) :
    r.source = src ∧ resolveAll src = .ok r.dialects := by
  obtain ⟨ds, hds, h⟩ := Outcome.bind_eq_ok.mp h
  cases h
  exact ⟨rfl, hds⟩

theorem extend_nil {src : Source} (h : src.entries.isSome) : src.extend [] = src := by
  obtain ⟨entries, hentries⟩ := Option.isSome_iff_exists.mp h
  obtain ⟨_, _, _, _, _⟩ := src
  cases hentries
  simp [Source.extend]

theorem orEmpty_source {src : Source} {resolved : Resolved Registry}
    (h : ∀ r, resolved = .ok r → r.source = src) : (orEmpty src resolved).source = src := by
  cases resolved with
  | error e => rfl
  | ok r => exact h r rfl

/-- A dialect is resolved with the encoding it is given. -/
theorem dialect_ok {gates : List (String × String)} {named : Named} {s : State}
    {enc : Encoding} {d : Dialect} (h : dialect gates named s enc = .ok d) :
    d.id = named.1 ∧ d.features = s.features.mergeSort (· ≤ ·) ∧ d.opcodes = enc.opcodes ∧
      d.widths.operand = enc.widths.operand ∧ enc.era.tags = some d.constants.tags ∧
      ∃ table, enc.era.constants = some table ∧
        requiredCount table "int_width" = .ok d.constants.intWidth := by
  obtain ⟨table, htable, h⟩ := Outcome.bind_eq_ok.mp h
  obtain ⟨tags, htags, h⟩ := Outcome.bind_eq_ok.mp h
  split at h
  · cases h
  · obtain ⟨_, -, h⟩ := Outcome.bind_eq_ok.mp h
    obtain ⟨_, -, h⟩ := Outcome.bind_eq_ok.mp h
    obtain ⟨_, -, h⟩ := Outcome.bind_eq_ok.mp h
    obtain ⟨_, -, h⟩ := Outcome.bind_eq_ok.mp h
    obtain ⟨_, -, h⟩ := Outcome.bind_eq_ok.mp h
    obtain ⟨intWidth, hint, h⟩ := Outcome.bind_eq_ok.mp h
    obtain ⟨_, -, h⟩ := Outcome.bind_eq_ok.mp h
    obtain ⟨_, -, h⟩ := Outcome.bind_eq_ok.mp h
    cases h
    exact ⟨rfl, rfl, rfl, rfl, require_eq_ok.mp htags, table,
      require_eq_ok.mp htable, hint⟩

/-- What the dialects of resolved data come from. -/
structure Resolution (src : Source) (ds : List Dialect) (ops : List Operation) (known : List String)
    (eras : List EraEntry) (entries : List Named) (encodings : List Encoding) : Prop where
  ofOperations : ∃ es, src.operations = some es ∧ es.mapM operation = .ok ops
  ofFeatures : src.features = some known
  ofEras : src.eras = some eras
  ofEntries : ∃ es, src.entries = some es ∧ nameEntries [] es = .ok entries
  ofEncodings : eras.mapM (encoding ops) = .ok encodings
  ofDialect : ∀ d ∈ ds, ∃ named ∈ entries, ∃ s, ∃ enc ∈ encodings,
    stateOf eras known entries named.1 = .ok s ∧ dialect src.gates named s enc = .ok d
  ofIds : ds.map (·.id) = entries.map (·.1)

theorem resolveAll_ok {src : Source} {ds : List Dialect} (h : resolveAll src = .ok ds) :
    ∃ ops known eras entries encodings, Resolution src ds ops known eras entries encodings := by
  obtain ⟨ops, known, eras, encodings, es, entries, hframe, hes, hentries, hds⟩ :=
    resolveAll_eq_ok.mp h
  have hids := (nameEntries_eq_ok.mp hentries).2
  refine ⟨ops, known, eras, entries, encodings, hframe.ofOperations, hframe.ofFeatures,
    hframe.ofEras, ⟨es, hes, hentries⟩, hframe.ofEncodings, ?_, ?_⟩
  · intro d hd
    obtain ⟨named, hnamed, s, hs, hd⟩ := Outcome.exists_of_mem_right hds hd
    obtain ⟨enc, henc, hd⟩ := dialectIn_eq_ok.mp hd
    exact ⟨named, hnamed, s, enc, List.mem_of_find?_eq_some henc, stateOf_of_hasState hids hs, hd⟩
  · refine Outcome.map_eq_of_forall₂ hds fun ⟨s, _, hd⟩ => ?_
    obtain ⟨enc, -, hd⟩ := dialectIn_eq_ok.mp hd
    exact (dialect_ok hd).1

/-- **Ids** tell the dialects of resolved data apart. -/
theorem nodup_ids {src : Source} {r : Registry} (h : ofSource src = .ok r) : r.ids.Nodup := by
  obtain ⟨ops, known, eras, entries, encodings, hres⟩ := resolveAll_ok (ofSource_ok h).2
  obtain ⟨es, -, hentries⟩ := hres.ofEntries
  unfold ids
  rw [hres.ofIds]
  exact (nameEntries_eq_ok.mp hentries).2

/-- The dialect of an id is the one that has it. -/
theorem withId?_eq_some {r : Registry} {id : String} {d : Dialect} (h : r.ids.Nodup) :
    r.withId? id = some d ↔ d ∈ r.dialects ∧ d.id = id := by
  constructor
  · intro hfind
    exact ⟨List.mem_of_find?_eq_some hfind, by simpa using List.find?_some hfind⟩
  · rintro ⟨hd, rfl⟩
    cases hfind : r.withId? d.id with
    | none => exact absurd (beq_self_eq_true _) (List.find?_eq_none.mp hfind d hd)
    | some d' =>
      have hid : d'.id = d.id := by simpa using List.find?_some hfind
      rw [List.inj_on_of_nodup_map h (List.mem_of_find?_eq_some hfind) hd hid]

/-- A key finds the dialect whose id it spells. -/
theorem get?_of_mem {r : Registry} {key : Key} {d : Dialect} (h : r.ids.Nodup) (hd : d ∈ r.dialects)
    (hkey : key.id = .ok d.id) : r.get? key = some d := by
  unfold get? lookup?
  rw [hkey]
  exact (withId?_eq_some h).mpr ⟨hd, rfl⟩

/-- A registry with dialects is one that could be resolved. -/
theorem eq_ok_of_mem_orEmpty {src : Source} {resolved : Resolved Registry} {d : Dialect}
    (h : d ∈ (orEmpty src resolved).dialects) : resolved = .ok (orEmpty src resolved) := by
  cases resolved with
  | error e => cases h
  | ok r => rfl

/-- The standard registry is resolved from the standard data. -/
theorem standard_source : standard.source = standardSource :=
  orEmpty_source fun _ hr => (ofSource_ok hr).1

end Registry

namespace Dialect

/-! ## Registered dialects -/

/-- The dialects of the standard registry with any further entries. -/
def Registered (d : Dialect) : Prop :=
  ∃ more r, Registry.standard.extend more = .ok r ∧ d ∈ r.dialects

theorem registered_of_mem {d : Dialect} (h : d ∈ Registry.standard.dialects) : d.Registered := by
  refine ⟨[], Registry.standard, ?_, h⟩
  unfold Registry.extend
  rw [Registry.standard_source, Registry.extend_nil rfl]
  exact Registry.eq_ok_of_mem_orEmpty h

/-- The encoding of a dialect is that of an era with its operations numbered. -/
structure EncodedBy (d : Dialect) (e : Registry.EraEntry) : Prop where
  numbering : Registry.Numbering Registry.knownOperations d.opcodes
  tags : e.tags = some d.constants.tags
  intWidth : ∃ table, e.constants = some table ∧
    Registry.requiredCount table "int_width" = .ok d.constants.intWidth
  widths : ∃ table w, e.widths = some table ∧ Registry.widthsOf e.name table = .ok w ∧
    d.widths.operand = w.operand

/-- Numbers and tags can be turned around, and integers take at least a byte. -/
structure Regular (d : Dialect) : Prop where
  encoding? : ∀ {code op}, d.operationAt? code = some op →
    d.encoding? op.mnemonic = some (code, op)
  known : ∀ {code op}, d.operationAt? code = some op → op ∈ Registry.knownOperations
  kind : ∀ {tag name}, d.constants.nameOfTag? tag = some name →
    ∃ k, ConstantKind.ofText? name = some k ∧ d.constants.tagOf? k.text = some (tag : Int)
  intWidth_pos : 0 < d.constants.intWidth

theorem Registered.encodedBy {d : Dialect} (h : d.Registered) :
    ∃ e ∈ Registry.knownEras, d.EncodedBy e := by
  obtain ⟨more, r, hr, hd⟩ := h
  unfold Registry.extend at hr
  rw [Registry.standard_source] at hr
  obtain ⟨-, hds⟩ := Registry.ofSource_ok hr
  obtain ⟨ops, known, eras, entries, encodings, hres⟩ := Registry.resolveAll_ok hds
  obtain ⟨es, hes, hops⟩ := hres.ofOperations
  cases hes
  cases hres.ofEras
  obtain ⟨named, -, s, enc, henc, -, hd⟩ := hres.ofDialect d hd
  obtain ⟨e, he, hencoding⟩ := Outcome.exists_of_mem_mapM hres.ofEncodings henc
  obtain ⟨rfl, hnum, widths, hwidths, hwidthsOf⟩ := Registry.encoding_ok hencoding
  obtain ⟨-, -, hopcodes, hoperand, htags, hint⟩ := Registry.dialect_ok hd
  rw [Registry.eq_knownOperations hops, ← hopcodes] at hnum
  exact ⟨enc.era, he, hnum, htags, hint, widths, enc.widths, hwidths, hwidthsOf, hoperand⟩

/-- **Tags.** The tag of a kind is that of no other kind. -/
theorem Registered.nameOfTag?_of_tagOf? {d : Dialect} (h : d.Registered) {kind : String} {tag : Nat}
    (htag : d.constants.tagOf? kind = some (tag : Int)) :
    d.constants.nameOfTag? tag = some kind := by
  obtain ⟨e, he, hd⟩ := h.encodedBy
  have hapart := Registry.tagsApart_of_mem he
  rw [hd.tags] at hapart
  have hpairwise : d.constants.tags.Pairwise fun a b => a.2 ≠ b.2 := of_decide_eq_true hapart
  obtain ⟨before, after, htags, -⟩ := List.lookup_eq_some_iff.mp htag
  rw [htags, List.pairwise_append] at hpairwise
  unfold ConstantLayout.nameOfTag?
  rw [htags, List.find?_append, List.find?_eq_none.mpr, Option.none_or, List.find?_cons_of_pos]
  · rfl
  · simp
  · intro t ht
    simpa using hpairwise.2.2 t ht _ List.mem_cons_self

theorem EncodedBy.regular {d : Dialect} {e : Registry.EraEntry} (h : d.EncodedBy e)
    (he : e ∈ Registry.knownEras) : d.Regular := by
  refine ⟨?_, ?_, ?_, ?_⟩
  · intro code op hop
    have hget : d.opcodes[code]? = some (some op) := by
      unfold operationAt? at hop
      exact Option.join_eq_some_iff.mp hop
    unfold encoding? opcodeOf?
    rw [h.numbering.findIdx? hget]
    simp [hop]
  · intro code op hop
    unfold operationAt? at hop
    exact h.numbering.known op (List.mem_of_getElem? (Option.join_eq_some_iff.mp hop))
  · intro tag name hname
    unfold ConstantLayout.nameOfTag? at hname
    obtain ⟨t, ht, rfl⟩ := Option.map_eq_some_iff.mp hname
    have htag : t.2 = (tag : Int) := by simpa using List.find?_some ht
    have hall := Registry.tagsOnce_of_mem he
    rw [h.tags] at hall
    have hmem := List.all_eq_true.mp hall t (List.mem_of_find?_eq_some ht)
    rw [Bool.and_eq_true, beq_iff_eq] at hmem
    obtain ⟨hk, hlookup⟩ := hmem
    obtain ⟨k, hk⟩ := Option.isSome_iff_exists.mp hk
    have htext : k.text = t.1 := by
      unfold ConstantKind.ofText? at hk
      simpa using List.find?_some hk
    refine ⟨k, hk, ?_⟩
    unfold ConstantLayout.tagOf?
    rw [htext, hlookup, htag]
  · obtain ⟨table, htable, hn⟩ := h.intWidth
    exact Registry.intWidth_pos_of_mem he htable hn

/-- **Counts** take at most four bytes. -/
theorem Registered.countWidth_le {d : Dialect} (h : d.Registered) :
    d.operandWidth .count ≤ 4 := by
  obtain ⟨e, he, hd⟩ := h.encodedBy
  obtain ⟨table, w, htable, hw, hoperand⟩ := hd.widths
  unfold operandWidth
  rw [hoperand]
  exact Registry.countWidth_of_mem he htable hw

/-- **Registered dialects are regular.** -/
theorem Registered.regular {d : Dialect} (h : d.Registered) : d.Regular := by
  obtain ⟨e, he, hd⟩ := h.encodedBy
  exact hd.regular he

end Dialect

end Unscript
