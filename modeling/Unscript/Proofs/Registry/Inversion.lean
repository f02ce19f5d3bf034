import Mathlib.Data.List.Perm.Basic
import Unscript.Proofs.Registry.Inheritance

/-!
# Tables that can be turned around

A decoder goes from codes, tags and indices to names, an assembler from names back. The numbering of
operations is checked to name none twice, so it can always be turned around. Tags are not checked to
differ. Of the changes of a table of builtin functions, removals and insertions leave the names
apart; a renaming is only checked for the name it takes away, and may give a function the name that
another one has.

* `ConstantLayout.kindOfTag?`: the kind that a tag is read as.
* `Registry.RenamesApart`, `Registry.WayApart`: no renaming gives a name that is in use.

Results:
* `Registry.opcodeOf?_of_operationAt?`: the numbering of operations comes back.
* `ConstantLayout.kindOfTag?_iff`: when the tag of a kind comes back.
* `Dialect.builtinIndex?_iff`: when the index of a builtin function comes back.
* `Registry.nodup_afterRenaming`: when a renaming leaves names apart.
* `Registry.nodup_of_wayApart`: names stay apart on a way without such renamings.
* `Registry.tables_invert`: all of this for the dialects of a registry.
-/

namespace Unscript

/-! ## Tags -/

namespace ConstantLayout

/-- The kind that a tag is read as: the first one in the table that has it. -/
def kindOfTag? (l : ConstantLayout) (tag : Int) : Option String :=
  (l.tags.find? fun t => t.2 == tag).map (·.1)

/-- This is what is read of a tag that is not negative. -/
theorem nameOfTag?_eq (l : ConstantLayout) (tag : Nat) : l.nameOfTag? tag = l.kindOfTag? tag := rfl

/-- **Tags.** The tag of a kind is read as the kind if no entry before it has the same tag. -/
theorem kindOfTag?_iff {l : ConstantLayout} {kind : String} {tag : Int}
    (h : l.tagOf? kind = some tag) :
    l.kindOfTag? tag = some kind ↔ ∀ t ∈ l.tags.takeWhile (·.1 != kind), t.2 ≠ tag := by
  obtain ⟨before, after, htags, hbefore⟩ := List.lookup_eq_some_iff.mp h
  have hother : ∀ t ∈ before, (t.1 != kind) = true := by
    intro t ht
    have := hbefore t ht
    rw [bne_iff_ne] at this ⊢
    exact this.symm
  have htake : l.tags.takeWhile (·.1 != kind) = before := by
    rw [htags, List.takeWhile_append_of_pos hother, List.takeWhile_cons_of_neg (by simp),
      List.append_nil]
  rw [htake, kindOfTag?, htags, List.find?_append]
  constructor
  · intro hkind t ht htag
    have hsome : (before.find? fun t => t.2 == tag).isSome :=
      List.find?_isSome.mpr ⟨t, ht, by simp [htag]⟩
    obtain ⟨t', ht'⟩ := Option.isSome_iff_exists.mp hsome
    rw [ht', Option.some_or, Option.map_some] at hkind
    have hne := hother t' (List.mem_of_find?_eq_some ht')
    rw [bne_iff_ne] at hne
    exact hne (Option.some.inj hkind)
  · intro hapart
    rw [List.find?_eq_none.mpr fun t ht => by simpa using hapart t ht, Option.none_or,
      List.find?_cons_of_pos (by simp)]
    rfl

end ConstantLayout

/-! ## Builtin functions -/

/-- **Builtin functions.** The index of a function comes back from its name if no function before it
has the same name. -/
theorem Dialect.builtinIndex?_iff {d : Dialect} {i : Nat} {name : String}
    (h : d.builtinName? i = some name) :
    d.builtinIndex? name = some i ↔ name ∉ d.builtins.take i := by
  obtain ⟨hlt, rfl⟩ := List.getElem?_eq_some_iff.mp h
  unfold builtinIndex?
  rw [List.findIdx?_eq_some_iff_getElem, List.mem_take_iff_getElem]
  constructor
  · rintro ⟨_, _, hbefore⟩ ⟨j, hj, heq⟩
    exact hbefore j (by omega) (beq_iff_eq.mpr heq)
  · intro hnew
    exact ⟨hlt, beq_self_eq_true _, fun j hj heq => hnew ⟨j, by omega, beq_iff_eq.mp heq⟩⟩

/-- Indices come back from names that all differ. -/
theorem Dialect.builtinIndex?_of_nodup {d : Dialect} {i : Nat} {name : String}
    (hd : d.builtins.Nodup) (h : d.builtinName? i = some name) : d.builtinIndex? name = some i := by
  refine (builtinIndex?_iff h).mpr fun hmem => ?_
  obtain ⟨hlt, rfl⟩ := List.getElem?_eq_some_iff.mp h
  obtain ⟨j, hj, heq⟩ := List.mem_take_iff_getElem.mp hmem
  have := (List.Nodup.getElem_inj_iff hd).mp heq
  omega

namespace Registry

variable {eras : List EraEntry} {known : List String} {entries way : List Named} {id : String}
  {table table' : List String} {s : State} {src : Source} {r : Registry} {d : Dialect}

/-! ## Changes of a table -/

/-- No renaming gives a function a name that another one of the table has at that time. -/
def RenamesApart : List String → List (String × String) → Prop
  | _, [] => True
  | table, r :: rs => r.2 ∉ table.erase r.1 ∧ RenamesApart (afterRenaming table r) rs

/-- On a way from a table on, no renaming gives a name that is in use. -/
def WayApart : List String → List Named → Prop
  | _, [] => True
  | table, named :: rest =>
    RenamesApart (named.2.builtins.remove.foldl List.erase table) named.2.builtins.rename ∧
      WayApart (named.2.builtins.applied table) rest

/-- **A renaming** leaves names apart if and only if the new one is that of no other function. -/
theorem nodup_afterRenaming {r : String × String} (ht : table.Nodup) (hr : r.1 ∈ table) :
    (afterRenaming table r).Nodup ↔ r.2 ∉ table.erase r.1 := by
  have hperm : (afterRenaming table r).Perm (r.2 :: table.erase r.1) := by
    have := List.set_perm_cons_eraseIdx (List.idxOf_lt_length_of_mem hr) r.2
    rwa [List.eraseIdx_idxOf_eq_erase] at this
  rw [hperm.nodup_iff, List.nodup_cons, and_iff_left (ht.erase _)]

/-- Renamings leave names apart if none gives a name that is in use. -/
theorem nodup_renamed {rs : List (String × String)}
    (h : rs.foldlM (renameBuiltin id) table = .ok table') (hapart : RenamesApart table rs)
    (ht : table.Nodup) : table'.Nodup := by
  induction rs generalizing table with
  | nil =>
    cases h
    exact ht
  | cons r rs ih =>
    obtain ⟨renamed, hrename, h⟩ := Outcome.bind_eq_ok.mp h
    obtain ⟨hmem, rfl⟩ := renameBuiltin_ok hrename
    exact ih h hapart.2 ((nodup_afterRenaming ht hmem).mpr hapart.1)

theorem nodup_afterInsertion {i : Insertion} (ht : table.Nodup)
    (h : insertBuiltin id table i = .ok table') : table'.Nodup := by
  obtain ⟨⟨name, hname, hnew⟩, hafter, rfl⟩ := insertBuiltin_ok h
  have hcons : (name :: table).Nodup := List.nodup_cons.mpr ⟨hnew, ht⟩
  unfold afterInsertion
  rw [hname]
  cases hi : i.after with
  | none => exact (List.perm_append_singleton name table).nodup_iff.mpr hcons
  | some after =>
    have hlt := List.idxOf_lt_length_of_mem (hafter after hi)
    exact (List.perm_insertIdx name table (Nat.succ_le_of_lt hlt)).nodup_iff.mpr hcons

/-- **A change** that passes its checks leaves names apart if its renamings do. -/
theorem nodup_changeBuiltins {c : BuiltinChange} (h : changeBuiltins id table c = .ok table')
    (hapart : RenamesApart (c.remove.foldl List.erase table) c.rename) (ht : table.Nodup) :
    table'.Nodup := by
  obtain ⟨removed, hremove, h⟩ := Outcome.bind_eq_ok.mp h
  obtain ⟨renamed, hrename, hinsert⟩ := Outcome.bind_eq_ok.mp h
  rw [← Outcome.eq_foldl_of_foldlM hremove removeBuiltin_ok] at hapart
  have hremoved : removed.Nodup :=
    Outcome.foldlM_preserves hremove ht fun h hb => removeBuiltin_ok h ▸ hb.erase _
  have hrenamed : renamed.Nodup := nodup_renamed hrename hapart hremoved
  exact Outcome.foldlM_preserves hinsert hrenamed fun h hb => nodup_afterInsertion hb h

theorem wayApart_append {named : Named} : WayApart table (way ++ [named]) ↔ WayApart table way ∧
    RenamesApart (named.2.builtins.remove.foldl List.erase
      (way.foldl (fun table named => named.2.builtins.applied table) table))
      named.2.builtins.rename := by
  induction way generalizing table with
  | nil => simp [WayApart]
  | cons first way ih => rw [List.cons_append, WayApart, ih, WayApart, and_assoc, List.foldl_cons]

/-- The change of the table of builtin functions that is made with an entry. -/
theorem changeBuiltins_of_changed {o : Option State} {named : Named}
    (h : changed eras known o named = .ok s) : ∃ s₀, inherited eras named.1 named.2 o = .ok s₀ ∧
      changeBuiltins named.1 s₀.builtins named.2.builtins = .ok s.builtins := by
  obtain ⟨s₀, hs₀, h⟩ := Outcome.bind_eq_ok.mp h
  obtain ⟨builtins, hbuiltins, h⟩ := Outcome.bind_eq_ok.mp h
  obtain ⟨features, -, h⟩ := Outcome.bind_eq_ok.mp h
  cases h
  exact ⟨s₀, hs₀, hbuiltins⟩

/-- **Names stay apart** on the way to an entry if no renaming on it gives a name that is in use. -/
theorem nodup_of_wayApart {root : EraEntry} (hway : Descends entries id way)
    (h : way.foldlM (step eras known) none = .ok (some s))
    (hroot : (way.head?.bind (·.2.era)).bind (eraNamed? eras) = some root)
    (hnodup : root.builtins.Nodup) (hapart : WayApart root.builtins way) : s.builtins.Nodup := by
  induction hway generalizing s with
  | root hmem hbase =>
    obtain ⟨o, ho, h⟩ := Outcome.bind_eq_ok.mp h
    cases h
    obtain ⟨_, hs, ⟨⟩⟩ := step_eq_ok.mp ho
    obtain ⟨s₀, hs₀, hchange⟩ := changeBuiltins_of_changed hs
    obtain ⟨era, root', hera, hroot', rfl⟩ := inherited_none_ok hs₀
    rw [List.head?_cons, Option.bind_some, hera, Option.bind_some, hroot'] at hroot
    cases hroot
    exact nodup_changeBuiltins hchange hapart.1 hnodup
  | based hmem hbase hkey hway ih =>
    rw [List.foldlM_append] at h
    obtain ⟨o, hfold, h⟩ := Outcome.bind_eq_ok.mp h
    obtain ⟨o', ho, h⟩ := Outcome.bind_eq_ok.mp h
    cases h
    obtain ⟨_, hs, ⟨⟩⟩ := step_eq_ok.mp ho
    obtain ⟨b, rfl⟩ := exists_state hway hfold
    obtain ⟨s₀, hs₀, hchange⟩ := changeBuiltins_of_changed hs
    obtain rfl := inherited_some_ok hs₀
    obtain ⟨root', hroot', htable⟩ := (inherits_of_descends hway hfold).builtins
    rw [List.head?_append_of_ne_nil _ (by rintro rfl; cases hroot'), hroot'] at hroot
    cases hroot
    obtain ⟨hbefore, hlast⟩ := wayApart_append.mp hapart
    rw [← htable] at hlast
    have hbase : b.builtins.Nodup := ih hfold hroot' hbefore
    exact nodup_changeBuiltins hchange hlast hbase

/-! ## Dialects -/

/-- **Operations.** The code of an operation comes back from its mnemonic. -/
theorem opcodeOf?_of_operationAt? {ops : List Operation} {era : EraEntry}
    (hencoded : EncodedAs ops era d) {code : Nat} {op : Operation}
    (h : d.operationAt? code = some op) : d.opcodeOf? op.mnemonic = some code := by
  obtain ⟨enc, henc, hopcodes, -⟩ := hencoded.opcodes
  obtain ⟨-, hnumbering, -⟩ := encoding_ok henc
  unfold Dialect.operationAt? at h
  unfold Dialect.opcodeOf?
  rw [hopcodes] at h ⊢
  exact hnumbering.findIdx? (Option.join_eq_some_iff.mp h)

/-- Every kind of constants has a tag. -/
theorem exists_tagOf? {gates : List (String × String)} {named : Named} {enc : Encoding}
    (h : dialect gates named s enc = .ok d) (kind : ConstantKind) :
    ∃ tag, d.constants.tagOf? kind.text = some tag := by
  have htags := (dialect_ok h).2.2.2.2.1
  obtain ⟨_, -, h⟩ := Outcome.bind_eq_ok.mp h
  obtain ⟨tags, htags', h⟩ := Outcome.bind_eq_ok.mp h
  cases (require_eq_ok.mp htags').symm.trans htags
  split at h
  · cases h
  · rename_i hall
    have hmem : kind ∈ ConstantKind.all := by cases kind <;> decide
    have := List.find?_eq_none.mp hall kind hmem
    rw [Option.isNone_iff_eq_none] at this
    exact Option.ne_none_iff_exists'.mp this

/-- **Tables.** In every registry that data resolves to, the code of an operation comes back from its
mnemonic. The tag of a kind comes back if and only if no entry before it has the same tag, and the
index of a builtin function if and only if no function before it has the same name. If the builtin
functions of the era at the root of its way have different names, and no renaming on the way gives a
name that is in use, then every index comes back. -/
theorem tables_invert (h : ofSource src = .ok r) (hd : d ∈ r.dialects) :
    (∀ code op, d.operationAt? code = some op → d.opcodeOf? op.mnemonic = some code) ∧
    (∀ kind : ConstantKind, ∃ tag, d.constants.tagOf? kind.text = some tag ∧
      (d.constants.kindOfTag? tag = some kind.text ↔
        ∀ t ∈ d.constants.tags.takeWhile (·.1 != kind.text), t.2 ≠ tag)) ∧
    (∀ i name, d.builtinName? i = some name →
      (d.builtinIndex? name = some i ↔ name ∉ d.builtins.take i)) ∧
    ∃ eras es entries way root, src.eras = some eras ∧ src.entries = some es ∧
      List.Forall₂ Names es entries ∧ Descends entries d.id way ∧
      (way.head?.bind (·.2.era)).bind (eraNamed? eras) = some root ∧
      d.builtins = way.foldl (fun table named => named.2.builtins.applied table) root.builtins ∧
      (root.builtins.Nodup → WayApart root.builtins way →
        ∀ i name, d.builtinName? i = some name → d.builtinIndex? name = some i) := by
  obtain ⟨ops, known, eras, encodings, es, entries, hframe, hes, hnames, hds⟩ :=
    resolveAll_eq_ok.mp (ofSource_ok h).2
  obtain ⟨named, -, s, ⟨way, hway, hs⟩, hbuilt⟩ := Outcome.exists_of_mem_right hds hd
  obtain ⟨enc, hfind, hdialect⟩ := dialectIn_eq_ok.mp hbuilt
  obtain ⟨-, henc⟩ := eraNamed?_of_find? hframe.ofEncodings hfind
  obtain ⟨hencoded, hid, -, hbuiltins, -⟩ := encodedAs_of_dialect henc hdialect
  obtain ⟨root, hroot, htable⟩ := (inherits_of_descends hway hs).builtins
  refine ⟨fun code op => opcodeOf?_of_operationAt? hencoded, fun kind => ?_,
    fun i name => Dialect.builtinIndex?_iff, eras, es, entries, way, root, hframe.ofEras, hes,
    (nameEntries_eq_ok.mp hnames).1, hid ▸ hway, hroot, hbuiltins.trans htable, ?_⟩
  · obtain ⟨tag, htag⟩ := exists_tagOf? hdialect kind
    exact ⟨tag, htag, ConstantLayout.kindOfTag?_iff htag⟩
  · intro hnodup hapart i name
    refine Dialect.builtinIndex?_of_nodup ?_
    rw [hbuiltins]
    exact nodup_of_wayApart hway hs hroot hnodup hapart

/-- The dialect of the sample that removes, renames and inserts a builtin function. -/
theorem tables_invert_sample : ∃ r d, ofSource sampleSource = .ok r ∧ d ∈ r.dialects ∧
    d.builtins = ["cosine", "tan"] ∧
    (∀ i name, d.builtinName? i = some name → d.builtinIndex? name = some i) ∧
    ∀ kind : ConstantKind, ∃ tag, d.constants.tagOf? kind.text = some tag ∧
      (d.constants.kindOfTag? tag = some kind.text ↔
        ∀ t ∈ d.constants.tags.takeWhile (·.1 != kind.text), t.2 ≠ tag) := by
  have hfirst : (ofSource sampleSource).toOption.bind (fun r => r.dialects.head?.map fun d =>
      (d.id, d.builtins)) = some ("8c1731b", ["cosine", "tan"]) := by
    decide +kernel
  obtain ⟨r, hr, hfirst⟩ := Option.bind_eq_some_iff.mp hfirst
  obtain ⟨d, hd, hfirst⟩ := Option.map_eq_some_iff.mp hfirst
  obtain ⟨hid, hbuiltins⟩ := Prod.mk.inj hfirst
  have hr := Outcome.toOption_eq_some.mp hr
  have hmem : d ∈ r.dialects := List.mem_of_mem_head? hd
  obtain ⟨-, htags, -, eras, es, entries, way, root, heras, hes, hnames, hway, hroot, -, hback⟩ :=
    tables_invert hr hmem
  cases heras
  cases hes
  have hids : idOf (.text "8c1731b") = .ok "8c1731b" ∧ idOf (.text "0b806ee") = .ok "0b806ee" := by
    decide +kernel
  obtain rfl := List.right_unique_forall₂' Names.rightUnique hnames
    (.cons (b := ("8c1731b", _)) ⟨rfl, _, rfl, hids.1⟩
      (.cons (b := ("0b806ee", _)) ⟨rfl, _, rfl, hids.2⟩ .nil))
  have hroute {last first : Named} {key : Key} (hlast : last.2.base = some key)
      (hkey : idOf key = .ok first.1) (hfirst : first.2.base = none) :
      Descends [last, first] last.1 [first, last] :=
    .based List.mem_cons_self hlast hkey
      (.root (List.mem_cons_of_mem _ List.mem_cons_self) hfirst)
  rw [hid] at hway
  cases hway.unique (by decide) (hroute rfl hids.2 rfl)
  cases hroot
  exact ⟨r, d, hr, hmem, hbuiltins,
    hback (by decide) ⟨trivial, ⟨by decide, trivial⟩, trivial⟩, htags⟩

/-- The sample with the tag of nothing for resources, and a renaming to a name that is in use. -/
def clashingSource : Source :=
  { sampleSource with
    eras := some [{ firstEra with
      opcodes := some [], tags := some (numberedTags 0 6), builtins := ["sin", "cos"] }]
    entries := some [root "gd1" "0b806ee" "" "" 1 "" [],
      based "0b806ee" "8c1731b" "" "" 2 "" ⟨[], [("sin", "cos")], []⟩] }

/-- Renamings are not checked for the name they give, and tags not for being apart. -/
theorem not_forall_inverts :
    (¬ ∀ src r, ofSource src = .ok r → (∀ eras ∈ src.eras, ∀ e ∈ eras, e.builtins.Nodup) →
      ∀ d ∈ r.dialects, ∀ i name, d.builtinName? i = some name → d.builtinIndex? name = some i) ∧
    ¬ ∀ src r, ofSource src = .ok r → (∀ eras ∈ src.eras, ∀ e ∈ eras, e.builtins.Nodup) →
      ∀ d ∈ r.dialects, ∀ (kind : ConstantKind) tag, d.constants.tagOf? kind.text = some tag →
        d.constants.kindOfTag? tag = some kind.text := by
  have hnodup : ∀ eras ∈ clashingSource.eras, ∀ e ∈ eras, e.builtins.Nodup := by
    rintro _ ⟨rfl⟩ e he
    rw [List.mem_singleton.mp he]
    decide
  have hlast : (ofSource clashingSource).toOption.bind (fun r => r.dialects.getLast?.map fun d =>
      (d.builtins, d.constants.tags)) = some (["cos", "cos"], numberedTags 0 6) := by
    decide +kernel
  obtain ⟨r, hr, hlast⟩ := Option.bind_eq_some_iff.mp hlast
  obtain ⟨d, hd, hlast⟩ := Option.map_eq_some_iff.mp hlast
  obtain ⟨hbuiltins, htags⟩ := Prod.mk.inj hlast
  have hr := Outcome.toOption_eq_some.mp hr
  have hmem : d ∈ r.dialects := List.mem_of_mem_getLast? hd
  constructor
  · intro h
    have hback := h _ r hr hnodup d hmem 1 "cos"
    rw [Dialect.builtinName?, Dialect.builtinIndex?, hbuiltins] at hback
    exact absurd (hback (by decide)) (by decide)
  · intro h
    have hback := h _ r hr hnodup d hmem .resource 0
    rw [ConstantLayout.tagOf?, ConstantLayout.kindOfTag?, htags] at hback
    exact absurd (hback (by decide)) (by decide)

end Registry

end Unscript
