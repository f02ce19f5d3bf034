import Unscript.Proofs.Registry.Known

/-!
# Concrete dialects

Some entries of the standard data, written down as dialects. Scripts of one concrete dialect can then
be evaluated without resolving the whole registry.

* `Registry.oldest`, `Registry.firstLined`, `Registry.firstMatching`: the first dialect of all, the
  first with line tables, and the first with matches.

Results:
* `Registry.mem_of_agree`: what makes a dialect one of the standard registry.
* `Registry.oldest_mem`, `Registry.firstLined_mem`, `Registry.firstMatching_mem`: these are.
* `Registry.get?_oldest`: the key of the oldest dialect.
-/

namespace Unscript.Registry

/-- The oldest dialect. -/
def oldest : Dialect where
  id := "0b806ee"
  release := "1.0 dev"
  date := "2014-02-09"
  format := 1
  era := "gd1"
  engineMajor := 1
  variantMajor := 2
  summary := "initial version"
  opcodes := (firstEra.opcodes.getD []).map fun m =>
    knownOperations.find? fun op => some op.mnemonic == m
  widths := {
    opcode := .one
    operand
      | .slot | .builtin | .argc => .one
      | _ => .two
    others := [] }
  constants := ⟨4, 4, numberedTags 5 6⟩
  lineWidth := 0
  builtins := firstEra.builtins
  features := ["for_in", "inner_class", "legacy_switch_tokens"]
  gates := standardSource.gates

/-- Whether two dialects agree in all their data but the features. -/
def agree (a b : Dialect) : Bool :=
  a.id == b.id && a.release == b.release && a.date == b.date && a.format == b.format &&
    a.era == b.era && a.engineMajor == b.engineMajor && a.variantMajor == b.variantMajor &&
    a.summary == b.summary && a.opcodes == b.opcodes && a.widths.opcode == b.widths.opcode &&
    OperandKind.all.all (fun k => a.widths.operand k == b.widths.operand k) &&
    a.widths.others == b.widths.others && a.constants == b.constants &&
    a.lineWidth == b.lineWidth && a.builtins == b.builtins && a.gates == b.gates

theorem eq_of_agree {a b : Dialect} (h : agree a b) (hf : a.features = b.features) : a = b := by
  obtain ⟨_, _, _, _, _, _, _, _, _, ⟨_, _, _⟩, _, _, _, _, _⟩ := a
  obtain ⟨_, _, _, _, _, _, _, _, _, ⟨_, _, _⟩, _, _, _, _, _⟩ := b
  simp only [agree, Bool.and_eq_true, beq_iff_eq, OperandKind.all, List.all_cons, List.all_nil,
    and_assoc, true_and] at h
  simp only at hf
  obtain ⟨rfl, rfl, rfl, rfl, rfl, rfl, rfl, rfl, rfl, rfl, h1, h2, h3, h4, h5, h6, h7, rfl, rfl,
    rfl, rfl, rfl⟩ := h
  rw [hf]
  congr 2
  funext k
  cases k <;> assumption

/-- The entries of the standard data with their ids. -/
def knownEntries : List Named :=
  (nameEntries [] standardEntries).toOption.getD []

/-- What is known of the dialect with an id. -/
def knownState? (id : String) : Option State :=
  (stateOf knownEras standardFeatures knownEntries id).toOption

/-- A dialect is one of the standard registry if one of these agrees with it in all but the features
and these are, in order, the ones that are known. -/
theorem mem_of_agree {d : Dialect} {s : State} (hany : standard.dialects.any (agree d))
    (hstate : knownState? d.id = some s) (hsorted : d.features.Pairwise (· ≤ ·))
    (hperm : s.features.Perm d.features) : d ∈ standard.dialects := by
  obtain ⟨d', hd', hagree⟩ := List.any_eq_true.mp hany
  obtain ⟨-, hds⟩ := ofSource_ok (eq_ok_of_mem_orEmpty hd')
  obtain ⟨ops, known, eras, entries, encodings, hres⟩ := resolveAll_ok hds
  obtain ⟨es, hes, hentries⟩ := hres.ofEntries
  cases hes
  cases hres.ofFeatures
  cases hres.ofEras
  obtain ⟨named, -, s', enc, -, hs, hdialect⟩ := hres.ofDialect d' hd'
  obtain ⟨hid, hfeatures, -⟩ := dialect_ok hdialect
  have hknown : knownEntries = entries := by
    unfold knownEntries
    rw [hentries]
    rfl
  have hname : d.id = named.1 := by
    rw [← hid]
    simp only [agree, Bool.and_eq_true, beq_iff_eq, and_assoc] at hagree
    exact hagree.1
  have hs' : stateOf knownEras standardFeatures entries named.1 = .ok s' := hs
  unfold knownState? at hstate
  rw [hknown, hname, hs'] at hstate
  cases hstate
  have heq : d.features = d'.features := by
    rw [hfeatures]
    refine List.Perm.eq_of_pairwise (fun _ _ _ _ => String.le_antisymm) hsorted ?_
      (hperm.symm.trans (List.mergeSort_perm _ _).symm)
    exact (List.pairwise_mergeSort (fun a b c => by simpa using String.le_trans)
      (by simp [String.le_total]) _).imp of_decide_eq_true
  rwa [eq_of_agree hagree heq]

/-- The first dialect with line tables. -/
def firstLined : Dialect where
  id := "48f1d02"
  release := "2.0 dev"
  date := "2015-06-24"
  format := 5
  era := "gd2"
  engineMajor := 2
  variantMajor := 2
  summary := "added `SIGNAL` token"
  opcodes := (secondEra.opcodes.getD []).map fun m =>
    knownOperations.find? fun op => some op.mnemonic == m
  widths := {
    opcode := .one
    operand
      | .slot | .builtin | .argc => .one
      | .jump => .four
      | _ => .two
    others := [] }
  constants := ⟨4, 4, numberedTags 5 6⟩
  lineWidth := 2
  builtins := ((knownState? "48f1d02").map (·.builtins)).getD []
  features := ["for_in", "inner_class", "legacy_switch_tokens", "setget", "signal", "yield"]
  gates := standardSource.gates

/-- The first dialect with matches. -/
def firstMatching : Dialect where
  id := "f8a7c46"
  release := "3.0 dev"
  date := "2017-01-11"
  format := 12
  era := "gd3"
  engineMajor := 3
  variantMajor := 3
  summary := "added `MATCH` token"
  opcodes := (thirdEra.opcodes.getD []).map fun m =>
    knownOperations.find? fun op => some op.mnemonic == m
  widths := {
    opcode := .one
    operand
      | .builtin | .argc => .one
      | .jump => .four
      | _ => .two
    others := [] }
  constants := ⟨8, 8, numberedTags 17 18⟩
  lineWidth := 4
  builtins := ((knownState? "f8a7c46").map (·.builtins)).getD []
  features := ["breakpoint", "const_pi", "dollar", "enum", "for_in", "inner_class",
    "legacy_switch_tokens", "match", "onready", "remote_keywords", "setget", "signal", "yield"]
  gates := standardSource.gates

/-- The standard registry has dialects that agree with these. -/
theorem any_agree : [oldest, firstLined, firstMatching].all fun d => standard.dialects.any (agree d) := by
  decide +kernel

/-- What the standard data says of the features of these. -/
theorem features_knownState? :
    (knownState? oldest.id).map (·.features) = some oldest.features ∧
      (knownState? firstLined.id).map (·.features) =
        some ["for_in", "inner_class", "legacy_switch_tokens", "yield", "setget", "signal"] ∧
      (knownState? firstMatching.id).map (·.features) =
        some ["for_in", "inner_class", "legacy_switch_tokens", "yield", "setget", "signal", "onready",
          "breakpoint", "const_pi", "remote_keywords", "enum", "dollar", "match"] := by
  decide +kernel

/-- The oldest dialect is one of the standard registry. -/
theorem oldest_mem : oldest ∈ standard.dialects := by
  obtain ⟨s, hs, hfeatures⟩ := Option.map_eq_some_iff.mp features_knownState?.1
  exact mem_of_agree (List.all_eq_true.mp any_agree _ List.mem_cons_self) hs (by simp [oldest])
    (hfeatures ▸ .refl _)

theorem get?_oldest : standard.get? (.text "0b806ee") = some oldest :=
  get?_of_mem (nodup_ids (eq_ok_of_mem_orEmpty oldest_mem)) oldest_mem (by decide +kernel)

/-- The first dialect with line tables is one of the standard registry. -/
theorem firstLined_mem : firstLined ∈ standard.dialects := by
  obtain ⟨s, hs, hfeatures⟩ := Option.map_eq_some_iff.mp features_knownState?.2.1
  refine mem_of_agree (List.all_eq_true.mp any_agree _ (by simp)) hs (by simp [firstLined]) ?_
  rw [hfeatures]
  decide

/-- The first dialect with matches is one of the standard registry. -/
theorem firstMatching_mem : firstMatching ∈ standard.dialects := by
  obtain ⟨s, hs, hfeatures⟩ := Option.map_eq_some_iff.mp features_knownState?.2.2
  refine mem_of_agree (List.all_eq_true.mp any_agree _ (by simp)) hs (by simp [firstMatching]) ?_
  rw [hfeatures]
  decide

end Unscript.Registry
