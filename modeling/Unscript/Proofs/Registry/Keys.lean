import Mathlib.Algebra.Group.Int.Defs
import Unscript.Proofs.Registry.Inheritance
import Unscript.Proofs.Text.Hexadecimal

/-!
# Keys and the ids that they spell

An id is meant to be seven hexadecimal digits, whatever key spells it. A key as a number is not held
to seven digits, and a key as text may hold all that a numeral may: a sign, underscores, a second
mark. A key without any of this is plain, and for plain keys ids are what they are meant to be.

* `Key.IsCanonical`: seven hexadecimal digits.
* `Key.number?`: the number that a key denotes.
* `Key.IsPlain`: a number of seven digits, or a text of digits alone behind its mark.

Results:
* `Key.isCanonical_iff`: the ids of plain keys are canonical, and no other ids are.
* `Key.id_of_isCanonical`: a canonical id is its own id.
* `Key.id_of_isPlain`: the id of a plain key is its number in seven digits.
* `Key.number?_eq_of_id`: keys with the same id denote the same number.
* `Registry.lookup?_tag`: when a dialect is found under its own tag.
* `Registry.canonical_iff_plain`: all of this for any two keys, and for the dialects of a registry.
-/

namespace Unscript

open Text (IsHexDigit hexPadded numberOf padLeft readInt?)

namespace Key

/-! ## Plain keys -/

/-- Whether the text is seven hexadecimal digits. -/
def IsCanonical (id : String) : Prop :=
  id.length = idLength ∧ ∀ c ∈ id.toList, IsHexDigit c

instance : DecidablePred IsCanonical := fun id =>
  @instDecidableAnd _ _ _ (List.decidableBAll IsHexDigit id.toList)

/-- The characters of a text that are read as a numeral: no blanks around it, no mark in front, and
in lower case. -/
def digitsOf (s : String) : List Char :=
  dropMark ((Text.strip s.toList).map Char.toLower)

/-- The number that a key denotes. -/
def number? : Key → Option Int
  | .text s => readInt? 16 (String.ofList (digitsOf s))
  | .number n => some n
  | .bytes bs => (Text.ascii? bs).bind fun s => readInt? 16 (String.ofList (digitsOf s))

/-- Whether a key has at most seven digits and nothing but digits. -/
def IsPlain : Key → Prop
  | .text s => ∀ c ∈ digitsOf s, IsHexDigit c
  | .number n => n < 16 ^ idLength
  | .bytes bs => ∀ s ∈ Text.ascii? bs, ∀ c ∈ digitsOf s, IsHexDigit c

variable {k k' : Key} {id id' s : String} {cs : List Char}

/-- What a text has to hold for an id, and the id that it spells. -/
theorem idOfText_eq_ok : idOfText s = .ok id ↔ digitsOf s ≠ [] ∧ (digitsOf s).length ≤ idLength ∧
    (∃ n, readInt? 16 (String.ofList (digitsOf s)) = some n) ∧
    padLeft idLength '0' (String.ofList (digitsOf s)) = id := by
  unfold idOfText
  change (if ((digitsOf s).isEmpty || decide (idLength < (digitsOf s).length) ||
    (readInt? 16 (String.ofList (digitsOf s))).isNone) = true then _
    else Except.ok (padLeft idLength '0' (String.ofList (digitsOf s)))) = _ ↔ _
  rw [← Option.isSome_iff_exists]
  split
  · rename_i h
    simp only [Bool.or_eq_true, List.isEmpty_iff, decide_eq_true_eq, Option.isNone_iff_eq_none] at h
    constructor
    · rintro ⟨⟩
    · rintro ⟨hne, hlen, hsome, -⟩
      rcases h with (h | h) | h
      · exact absurd h hne
      · omega
      · simp [h] at hsome
  · rename_i h
    simp only [Bool.or_eq_true, List.isEmpty_iff, decide_eq_true_eq, Option.isNone_iff_eq_none,
      not_or, Nat.not_lt] at h
    obtain ⟨⟨hne, hlen⟩, hsome⟩ := h
    simp [hne, hlen, Option.isSome_iff_ne_none, hsome]

/-- How a text spells an id. -/
structure Spelled (k : Key) (id : String) (cs : List Char) : Prop where
  nonempty : cs ≠ []
  short : cs.length ≤ idLength
  numeral : ∃ n, readInt? 16 (String.ofList cs) = some n ∧ k.number? = some n
  plain : k.IsPlain ↔ ∀ c ∈ cs, IsHexDigit c
  ofId : padLeft idLength '0' (String.ofList cs) = id
  ofText : ∃ s, cs = digitsOf s

/-- How a number spells an id. -/
structure Counted (k : Key) (id : String) (n : Nat) : Prop where
  number : k.number? = some (n : Int)
  plain : k.IsPlain ↔ n < 16 ^ idLength
  ofId : hexPadded idLength n = id

/-- A key that is accepted is a number or a text of digits. -/
theorem counted_or_spelled (h : k.id = .ok id) :
    (∃ n, Counted k id n) ∨ ∃ cs, Spelled k id cs := by
  cases k with
  | text s =>
    obtain ⟨hne, hlen, ⟨n, hn⟩, hid⟩ := idOfText_eq_ok.mp h
    exact .inr ⟨digitsOf s, hne, hlen, ⟨n, hn, hn⟩, Iff.rfl, hid, s, rfl⟩
  | number n =>
    simp only [Key.id] at h
    split at h
    · cases h
    · obtain ⟨n, rfl⟩ := Int.eq_ofNat_of_zero_le (by omega : 0 ≤ n)
      refine .inl ⟨n, rfl, ?_, by simpa using h⟩
      simp only [IsPlain, idLength]
      omega
  | bytes bs =>
    simp only [Key.id] at h
    split at h
    · rename_i s hs
      obtain ⟨hne, hlen, ⟨n, hn⟩, hid⟩ := idOfText_eq_ok.mp h
      refine .inr ⟨digitsOf s, hne, hlen, ⟨n, hn, ?_⟩, ?_, hid, s, rfl⟩
      · simp [number?, hs, hn]
      · simp [IsPlain, hs]
    · cases h

/-! ## Canonical ids -/

theorem isCanonical_hexPadded {n : Nat} : IsCanonical (hexPadded idLength n) ↔ n < 16 ^ idLength := by
  rw [← Text.length_hexPadded (by decide)]
  refine ⟨And.left, fun hlen => ⟨hlen, fun c hc => ?_⟩⟩
  obtain ⟨ds, hds, hdigits, -⟩ := Text.hexPadded_eq_map idLength n
  rw [hdigits] at hc
  obtain ⟨d, hd, rfl⟩ := List.mem_map.mp hc
  exact Text.isHexDigit_digitChar d (hds d hd)

theorem Spelled.length_id (h : Spelled k id cs) : id.length = idLength := by
  have := h.short
  rw [← h.ofId, ← String.length_toList, Text.toList_padLeft, List.length_append,
    List.length_replicate, String.length_ofList, String.toList_ofList]
  omega

/-- **Canonical ids.** The ids of plain keys are canonical, and no other ids are. -/
theorem isCanonical_iff (h : k.id = .ok id) : IsCanonical id ↔ k.IsPlain := by
  obtain ⟨n, h⟩ | ⟨cs, h⟩ := counted_or_spelled h
  · rw [h.plain, ← h.ofId, isCanonical_hexPadded]
  · rw [h.plain, IsCanonical, and_iff_right h.length_id, ← h.ofId, Text.toList_padLeft,
      String.toList_ofList]
    refine ⟨fun hall c hc => hall c (List.mem_append_right _ hc), fun hall c hc => ?_⟩
    rcases List.mem_append.mp hc with hc | hc
    · rw [List.eq_of_mem_replicate hc]
      decide
    · exact hall c hc

/-- The id of a plain key is its number in seven digits. -/
theorem id_of_isPlain (h : k.id = .ok id) (hplain : k.IsPlain) :
    ∃ n : Nat, k.number? = some (n : Int) ∧ id = hexPadded idLength n := by
  obtain ⟨n, h⟩ | ⟨cs, h⟩ := counted_or_spelled h
  · exact ⟨n, h.number, h.ofId.symm⟩
  · obtain ⟨ds, hds, rfl⟩ := Text.exists_map_digitChar (h.plain.mp hplain)
    obtain ⟨n, hread, hnumber⟩ := h.numeral
    have hne : ds ≠ [] := fun hnil => h.nonempty (by rw [hnil]; rfl)
    rw [Text.readInt?_digits hds hne] at hread
    have hlen : ds.length ≤ idLength := by simpa using h.short
    refine ⟨numberOf 0 ds, hnumber.trans hread.symm, ?_⟩
    rw [← h.ofId, Text.padLeft_eq_hexPadded hds hlen (by decide)]

/-! ## Reading an id again -/

theorem isBlank_toLower {c : Char} (h : Text.isBlank c = false) :
    Text.isBlank c.toLower = false := by
  delta Char.toLower
  split
  · rename_i hupper
    simp only [ge_iff_le, UInt32.le_iff_toNat_le, Char.toNat_val, Char.reduceToNat] at hupper
    rw [← Bool.not_eq_true]
    intro hblank
    have hnat : (c.val + ('a'.val - 'A'.val)).toNat = c.toNat + 32 := by
      rw [UInt32.toNat_add, Char.toNat_val]
      exact Nat.mod_eq_of_lt (by simp; omega)
    simp only [Text.isBlank, Char.toNat_mk, hnat, Bool.or_eq_true, Bool.and_eq_true,
      decide_eq_true_eq, beq_iff_eq] at hblank
    omega
  · exact h

theorem toLower_toLower (c : Char) : c.toLower.toLower = c.toLower := by
  have hnot (d : Char) (hd : ¬ (d.val ≥ 'A'.val ∧ d.val ≤ 'Z'.val)) : d.toLower = d :=
    dif_neg hd
  by_cases hupper : c.val ≥ 'A'.val ∧ c.val ≤ 'Z'.val
  · refine hnot _ ?_
    delta Char.toLower
    rw [dif_pos hupper]
    simp only [ge_iff_le, UInt32.le_iff_toNat_le, Char.toNat_val, Char.reduceToNat] at hupper ⊢
    have hnat : (c.val + ('a'.val - 'A'.val)).toNat = c.toNat + 32 := by
      rw [UInt32.toNat_add, Char.toNat_val]
      exact Nat.mod_eq_of_lt (by simp; omega)
    omega
  · rw [hnot c hupper, hnot c hupper]

/-- Lower-case text without a blank at its end. -/
structure IsSettled (cs : List Char) : Prop where
  nonempty : cs ≠ []
  lower : cs.map Char.toLower = cs
  last : ∀ c ∈ cs.getLast?, Text.isBlank c = false

theorem IsSettled.of_suffix {pre : List Char} (h : IsSettled (pre ++ cs)) (hne : cs ≠ []) :
    IsSettled cs := by
  refine ⟨hne, ?_, fun c hc => h.last c ?_⟩
  · have hlower := h.lower
    rw [List.map_append] at hlower
    exact (List.append_inj' hlower (by simp)).2
  · rw [List.getLast?_append_of_ne_nil _ hne]
    exact hc

theorem IsSettled.append {pre : List Char} (hpre : pre.map Char.toLower = pre)
    (h : IsSettled cs) : IsSettled (pre ++ cs) := by
  refine ⟨by simp [h.nonempty], by rw [List.map_append, hpre, h.lower], fun c hc => h.last c ?_⟩
  rwa [List.getLast?_append_of_ne_nil _ h.nonempty] at hc

/-- A mark is in front of what stays. -/
theorem exists_append_dropMark (cs : List Char) : ∃ pre, pre ++ dropMark cs = cs := by
  unfold dropMark
  split
  · exact ⟨['v', '_'], rfl⟩
  · exact ⟨['0', 'x'], rfl⟩
  · exact ⟨[], rfl⟩

/-- A text without the blanks around it does not end in one. -/
theorem isBlank_of_getLast?_strip {c : Char} (hc : c ∈ (Text.strip cs).getLast?) :
    Text.isBlank c = false := by
  obtain ⟨hne, rfl⟩ := List.mem_getLast?_eq_getLast hc
  exact Bool.not_eq_true _ |>.mp
    (List.rdropWhile_last_not Text.isBlank (cs.dropWhile Text.isBlank) hne)

theorem isSettled_digitsOf (hne : digitsOf s ≠ []) : IsSettled (digitsOf s) := by
  obtain ⟨pre, hpre⟩ := exists_append_dropMark ((Text.strip s.toList).map Char.toLower)
  suffices hwhole : IsSettled (pre ++ digitsOf s) from hwhole.of_suffix hne
  rw [digitsOf, hpre]
  refine ⟨fun hnil => hne ?_, ?_, ?_⟩
  · rw [digitsOf, hnil]
    rfl
  · rw [List.map_map]
    exact List.map_congr_left fun c _ => toLower_toLower c
  · intro c hc
    rw [List.getLast?_map] at hc
    obtain ⟨d, hd, rfl⟩ := Option.map_eq_some_iff.mp hc
    exact isBlank_toLower (isBlank_of_getLast?_strip hd)

/-- Nothing is dropped from hexadecimal digits. -/
theorem plain_of_isHexDigit {c : Char} (h : IsHexDigit c) :
    c.toLower = c ∧ Text.isBlank c = false ∧ c ≠ 'v' ∧ c ≠ 'x' := by
  have hplain : ∀ d < 16, (Nat.digitChar d).toLower = Nat.digitChar d ∧
      Text.isBlank (Nat.digitChar d) = false ∧ Nat.digitChar d ≠ 'v' ∧ Nat.digitChar d ≠ 'x' := by
    decide
  obtain ⟨d, hd, rfl⟩ := h.exists_digitChar
  exact hplain d hd

theorem isSettled_of_isHexDigit (hne : cs ≠ []) (h : ∀ c ∈ cs, IsHexDigit c) : IsSettled cs where
  nonempty := hne
  lower := (List.map_congr_left fun c hc => (plain_of_isHexDigit (h c hc)).1).trans (List.map_id' _)
  last c hc := (plain_of_isHexDigit (h c (List.mem_of_mem_getLast? hc))).2.1

/-- Ids are in lower case and do not end in a blank. -/
theorem isSettled_id (h : k.id = .ok id) : IsSettled id.toList := by
  obtain ⟨n, h⟩ | ⟨cs, h⟩ := counted_or_spelled h
  · obtain ⟨ds, hds, hdigits, -⟩ := Text.hexPadded_eq_map idLength n
    rw [← h.ofId]
    refine isSettled_of_isHexDigit (fun hnil => ?_) fun c hc => ?_
    · have := Text.le_length_hexPadded idLength n
      rw [← String.length_toList, hnil] at this
      exact absurd this (by decide)
    · rw [hdigits] at hc
      obtain ⟨d, hd, rfl⟩ := List.mem_map.mp hc
      exact Text.isHexDigit_digitChar d (hds d hd)
  · obtain ⟨s, rfl⟩ := h.ofText
    rw [← h.ofId, Text.toList_padLeft, String.toList_ofList]
    refine IsSettled.append ?_ (isSettled_digitsOf h.nonempty)
    rw [List.map_replicate]
    rfl

theorem strip_of_ends {c : Char} (hc : Text.isBlank c = false)
    (hlast : ∀ d ∈ (c :: cs).getLast?, Text.isBlank d = false) :
    Text.strip (c :: cs) = c :: cs := by
  rw [Text.strip, List.dropWhile_cons_of_neg (by simp [hc])]
  refine List.rdropWhile_eq_self_iff.mpr fun hne => ?_
  rw [hlast _ (List.getLast_mem_getLast? hne)]
  exact Bool.false_ne_true

/-- The tag of an id is read as the id. -/
theorem digitsOf_tag (h : IsSettled id.toList) : digitsOf ("V_" ++ id) = id.toList := by
  have hlist : ("V_" ++ id).toList = 'V' :: '_' :: id.toList := by rw [String.toList_append]; rfl
  rw [digitsOf, hlist, strip_of_ends (by decide), List.map_cons, List.map_cons, h.lower]
  · rfl
  · intro d hd
    obtain ⟨c, cs, hcs⟩ := List.exists_cons_of_ne_nil h.nonempty
    rw [hcs, List.getLast?_cons_cons, List.getLast?_cons_cons, ← hcs] at hd
    exact h.last d hd

/-- A canonical id is read as it stands. -/
theorem digitsOf_of_isCanonical (h : IsCanonical id) : digitsOf id = id.toList := by
  have hne : id.toList ≠ [] := fun hnil => by
    have hlen := h.1
    rw [← String.length_toList, hnil] at hlen
    cases hlen
  have hsettled := isSettled_of_isHexDigit hne h.2
  obtain ⟨c, cs, hcs⟩ := List.exists_cons_of_ne_nil hne
  have hhex := h.2
  rw [hcs] at hsettled hhex
  obtain ⟨-, hblank, hv, -⟩ := plain_of_isHexDigit (hhex c List.mem_cons_self)
  rw [digitsOf, hcs, strip_of_ends hblank hsettled.last, hsettled.lower]
  unfold dropMark
  split
  · rename_i heq
    exact absurd (List.cons_eq_cons.mp heq).1 hv
  · rename_i heq
    obtain ⟨-, rfl⟩ := List.cons_eq_cons.mp heq
    exact absurd rfl (plain_of_isHexDigit (hhex 'x' (by simp))).2.2.2
  · rfl

/-- A text that is read as it stands spells itself if it is a numeral of seven characters. -/
theorem idOfText_of_digitsOf (hs : digitsOf s = id.toList) (hlen : idLength ≤ id.length) :
    idOfText s = .ok id ↔ id.length = idLength ∧ (readInt? 16 id).isSome := by
  rw [idOfText_eq_ok, hs, String.ofList_toList, String.length_toList, Option.isSome_iff_exists]
  constructor
  · rintro ⟨-, hle, hread, -⟩
    exact ⟨le_antisymm hle hlen, hread⟩
  · rintro ⟨heq, hread⟩
    refine ⟨fun hnil => ?_, heq.le, hread, ?_⟩
    · rw [← String.length_toList, hnil] at hlen
      exact absurd hlen (by decide)
    · rw [← String.toList_inj, Text.toList_padLeft, heq, Nat.sub_self, List.replicate_zero,
        List.nil_append]

/-- A canonical id is its own id. -/
theorem id_of_isCanonical (h : IsCanonical id) : (Key.text id).id = .ok id := by
  refine (idOfText_of_digitsOf (digitsOf_of_isCanonical h) h.1.ge).mpr ⟨h.1, ?_⟩
  obtain ⟨ds, hds, hdigits⟩ := Text.exists_map_digitChar h.2
  rw [← String.ofList_toList (s := id), hdigits, Text.readInt?_digits hds]
  · rfl
  · rintro rfl
    have hlen := h.1
    rw [← String.length_toList, hdigits] at hlen
    cases hlen

/-! ## Keys with the same id -/

/-- Of two texts with the same id, one is the other with zeros in front. -/
theorem Spelled.number?_eq {cs' : List Char} (h : Spelled k id cs) (h' : Spelled k' id cs')
    (hle : cs'.length ≤ cs.length) : k.number? = k'.number? := by
  obtain ⟨v, hv, hnumber⟩ := h.numeral
  obtain ⟨v', hv', hnumber'⟩ := h'.numeral
  have hzeros : idLength - cs'.length = (idLength - cs.length) + (cs.length - cs'.length) := by
    have := h.short
    omega
  have hsame := congrArg String.toList (h.ofId.trans h'.ofId.symm)
  rw [Text.toList_padLeft, Text.toList_padLeft, String.toList_ofList, String.toList_ofList,
    String.length_ofList, String.length_ofList, hzeros, List.replicate_add, List.append_assoc,
    List.append_cancel_left_eq] at hsame
  rw [hsame] at hv
  rw [hnumber, hnumber', Text.readInt?_zeros hv' hv]

/-- Keys with the same id denote the same number. -/
theorem number?_eq_of_id (h : k.id = .ok id) (h' : k'.id = .ok id) : k.number? = k'.number? := by
  by_cases hcanonical : IsCanonical id
  · obtain ⟨n, hn, hid⟩ := id_of_isPlain h ((isCanonical_iff h).mp hcanonical)
    obtain ⟨m, hm, hid'⟩ := id_of_isPlain h' ((isCanonical_iff h').mp hcanonical)
    rw [hn, hm, Text.hexPadded_inj (hid.symm.trans hid')]
  · -- a number of more than seven digits is not spelled by a text
    have hlong {k k' : Key} {n : Nat} {cs : List Char} (hk : Counted k id n)
        (hk' : Spelled k' id cs) : False := by
      refine hcanonical ?_
      rw [← hk.ofId, isCanonical_hexPadded, ← Text.length_hexPadded (by decide), hk.ofId]
      exact hk'.length_id
    obtain ⟨n, hk⟩ | ⟨cs, hk⟩ := counted_or_spelled h <;>
      obtain ⟨n', hk'⟩ | ⟨cs', hk'⟩ := counted_or_spelled h'
    · rw [hk.number, hk'.number, Text.hexPadded_inj (hk.ofId.trans hk'.ofId.symm)]
    · exact (hlong hk hk').elim
    · exact (hlong hk' hk).elim
    · rcases Nat.le_total cs'.length cs.length with hle | hle
      · exact hk.number?_eq hk' hle
      · exact (hk'.number?_eq hk hle).symm

theorem isSome_number? (h : k.id = .ok id) : ∃ n, k.number? = some n := by
  obtain ⟨n, h⟩ | ⟨cs, h⟩ := counted_or_spelled h
  · exact ⟨n, h.number⟩
  · obtain ⟨n, -, hn⟩ := h.numeral
    exact ⟨n, hn⟩

theorem idLength_le_length (h : k.id = .ok id) : idLength ≤ id.length := by
  obtain ⟨n, h⟩ | ⟨cs, h⟩ := counted_or_spelled h
  · rw [← h.ofId]
    exact Text.le_length_hexPadded _ _
  · exact h.length_id.ge

end Key

/-! ## Registries -/

namespace Registry

/-- The id of a dialect is what the commit of one of the entries spells. -/
theorem exists_commit {src : Source} {r : Registry} {d : Dialect} (h : ofSource src = .ok r)
    (hd : d ∈ r.dialects) : ∃ es e key, src.entries = some es ∧ e ∈ es ∧ e.commit = some key ∧
      key.id = .ok d.id := by
  obtain ⟨ops, known, eras, entries, encodings, hres⟩ := resolveAll_ok (ofSource_ok h).2
  obtain ⟨es, hes, hentries⟩ := hres.ofEntries
  have hid : d.id ∈ entries.map (·.1) := hres.ofIds ▸ List.mem_map_of_mem hd
  obtain ⟨named, hnamed, hname⟩ := List.mem_map.mp hid
  obtain ⟨e, he, -, key, hcommit, hkey⟩ :=
    Outcome.exists_of_mem_right (nameEntries_eq_ok.mp hentries).1 hnamed
  refine ⟨es, e, key, hes, he, hcommit, ?_⟩
  rw [← hname]
  unfold idOf at hkey
  cases hk : key.id with
  | error e => rw [hk] at hkey; cases hkey
  | ok id => rw [hk] at hkey; cases hkey; rfl

/-- A dialect is found under its own tag if its id is a numeral of seven characters. -/
theorem lookup?_tag {r : Registry} {d : Dialect} {key : Key} (h : r.ids.Nodup)
    (hd : d ∈ r.dialects) (hkey : key.id = .ok d.id) :
    r.lookup? (.text d.tag) = .ok (some d) ↔
      d.id.length = Key.idLength ∧ (readInt? 16 d.id).isSome := by
  rw [← Key.idOfText_of_digitsOf (Key.digitsOf_tag (Key.isSettled_id hkey))
    (Key.idLength_le_length hkey)]
  change Except.map r.withId? (Key.idOfText d.tag) = _ ↔ Key.idOfText d.tag = _
  cases Key.idOfText d.tag with
  | error e => simp [Except.map]
  | ok id =>
    simp only [Except.map, Except.ok.injEq, withId?_eq_some h, and_iff_right hd]
    exact eq_comm

end Registry

/-- **Keys and ids.** The id of an accepted key is seven hexadecimal digits if and only if the key is
plain, and then it is its own id. Keys with the same id denote the same number, and plain keys that
denote the same number have the same id. A dialect of a registry is found under its own tag if and
only if its id is a numeral of seven characters, and always if the commit of its entry is plain. -/
theorem Registry.canonical_iff_plain (k : Key) (src : Registry.Source) :
    (∀ id, k.id = .ok id →
      (Key.IsCanonical id ↔ k.IsPlain) ∧
      (k.IsPlain → (Key.text id).id = .ok id) ∧
      ∃ n, k.number? = some n ∧ ∀ (k' : Key) id', k'.id = .ok id' →
        (id = id' → k'.number? = some n) ∧
        (k.IsPlain → k'.IsPlain → k'.number? = some n → id = id')) ∧
    ∀ r, Registry.ofSource src = .ok r → ∀ d ∈ r.dialects, ∃ es e key,
      src.entries = some es ∧ e ∈ es ∧ e.commit = some key ∧ key.id = .ok d.id ∧
      (key.IsPlain → r.lookup? (.text d.tag) = .ok (some d)) ∧
      (r.lookup? (.text d.tag) = .ok (some d) ↔
        d.id.length = Key.idLength ∧ (readInt? 16 d.id).isSome) := by
  refine ⟨fun id h => ?_, fun r h d hd => ?_⟩
  · obtain ⟨n, hn⟩ := Key.isSome_number? h
    refine ⟨Key.isCanonical_iff h,
      fun hplain => Key.id_of_isCanonical ((Key.isCanonical_iff h).mpr hplain), n, hn,
      fun k' id' h' => ⟨?_, fun hplain hplain' hn' => ?_⟩⟩
    · rintro rfl
      rw [← Key.number?_eq_of_id h h', hn]
    · obtain ⟨m, hm, rfl⟩ := Key.id_of_isPlain h hplain
      obtain ⟨m', hm', rfl⟩ := Key.id_of_isPlain h' hplain'
      rw [hn] at hm
      rw [hn'] at hm'
      rw [Int.ofNat.inj (Option.some.inj (hm.symm.trans hm'))]
  · obtain ⟨es, e, key, hes, he, hcommit, hkey⟩ := Registry.exists_commit h hd
    have htag := Registry.lookup?_tag (Registry.nodup_ids h) hd hkey
    refine ⟨es, e, key, hes, he, hcommit, hkey, fun hplain => htag.mpr ?_, htag⟩
    have hcanonical := (Key.isCanonical_iff hkey).mpr hplain
    exact (Key.idOfText_of_digitsOf (Key.digitsOf_of_isCanonical hcanonical)
      hcanonical.1.ge).mp (Key.id_of_isCanonical hcanonical)

theorem Registry.canonical_iff_plain_sample :
    Key.id (.text " v_8C1731b ") = .ok "8c1731b" ∧ Key.id (.number 0x8c1731b) = .ok "8c1731b" ∧
      (Key.text "8c1731b").id = .ok "8c1731b" ∧
      ∃ r, Registry.ofSource sampleSource = .ok r ∧ r.ids = ["8c1731b", "0b806ee"] ∧
        ∀ d ∈ r.dialects, r.lookup? (.text d.tag) = .ok (some d) := by
  obtain ⟨hkey, hregistry⟩ := Registry.canonical_iff_plain (.number 0x8c1731b) sampleSource
  have htext : Key.id (.text " v_8C1731b ") = .ok "8c1731b" := by decide +kernel
  have hnumber : Key.id (.number 0x8c1731b) = .ok "8c1731b" := by decide +kernel
  have hplain : (Key.number 0x8c1731b).IsPlain :=
    (show (0x8c1731b : Int) < 16 ^ Key.idLength by decide)
  have hids : (ofSource sampleSource).toOption.map ids = some ["8c1731b", "0b806ee"] := by
    decide +kernel
  obtain ⟨r, hr, hids⟩ := Option.map_eq_some_iff.mp hids
  have hr := Outcome.toOption_eq_some.mp hr
  refine ⟨htext, hnumber, (hkey _ hnumber).2.1 hplain, r, hr, hids, fun d hd => ?_⟩
  obtain ⟨-, -, -, -, -, -, -, -, htag⟩ := hregistry r hr d hd
  have hid : d.id ∈ ["8c1731b", "0b806ee"] := hids ▸ List.mem_map_of_mem hd
  have hnumeral : ∀ id ∈ ["8c1731b", "0b806ee"],
      id.length = Key.idLength ∧ (readInt? 16 id).isSome := by decide +kernel
  exact htag.mpr (hnumeral d.id hid)

/-- The sample with an entry more, whose commit is a number of eight digits. -/
def Registry.longSource : Source :=
  sampleSource.extend [{ based "0b806ee" "" "" "" 1 "" with commit := some (.number (16 ^ 7)) }]

/-- A sign takes the place of a digit, and a number may have more than seven of them. -/
theorem Registry.not_forall_isCanonical :
    (¬ ∀ k id, Key.id k = .ok id → Key.IsCanonical id) ∧
    (¬ ∀ k id, Key.id k = .ok id → (Key.text id).id = .ok id) ∧
    (¬ ∀ k k' id id', Key.id k = .ok id → Key.id k' = .ok id' → k.number? = k'.number? → id = id') ∧
    ¬ ∀ src r, Registry.ofSource src = .ok r → ∀ d ∈ r.dialects,
      r.lookup? (.text d.tag) = .ok (some d) := by
  have hsign : Key.id (.text "+703004") = .ok "+703004" := by decide +kernel
  have hlong : Key.id (.number (16 ^ 7)) = .ok "10000000" := by decide +kernel
  refine ⟨fun h => absurd (h _ _ hsign) (by decide), fun h => ?_, fun h => ?_, fun h => ?_⟩
  · exact absurd (h _ _ hlong) (by decide +kernel)
  · have hplain : Key.id (.text "703004") = .ok "0703004" := by decide +kernel
    exact absurd (h _ _ _ _ hsign hplain (by decide +kernel)) (by decide)
  · have hfound : ((ofSource longSource).toOption.map fun r => r.dialects.all fun d =>
        (r.lookup? (.text d.tag)).isOk) = some false := by
      decide +kernel
    obtain ⟨r, hr, hfound⟩ := Option.map_eq_some_iff.mp hfound
    obtain ⟨d, hd, hmissing⟩ := List.all_eq_false.mp hfound
    rw [h longSource r (Outcome.toOption_eq_some.mp hr) d hd] at hmissing
    exact hmissing rfl

end Unscript
