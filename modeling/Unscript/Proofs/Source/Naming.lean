import Mathlib.Data.List.Nodup
import Mathlib.Data.List.Perm.Subperm
import Mathlib.Data.Nat.Find
import Std.Data.String.ToNat
import Unscript.Proofs.Source.Printing

/-!
# The names of locals

Locals get their names in the order of their slots. The name that a slot should have may be taken:
recorded names repeat, and may look like names by position or like numbered ones. Then the name gets
the first number from two on that makes a name which is not taken. As there are only so many taken
names, a number is found before all of them are passed.

So all names differ. What is printed of two of them may not: a recorded name counts as an identifier
with a line break at its end, and is printed with it. On its line only the word before the break is
left, which another local may have.

* `Source.nameForm`: a name and its numbered forms, one after the other.
* `Source.IsFirstFree`: a name is the first form of another that is not taken.
* `Source.NameTable.Names`: what is known of the names given to the first slots.
* `Source.wordOf`: what stands of a name on its line.

Results:
* `Source.exists_first_free`: among the forms of a name some is free, and one comes first.
* `Source.NameTable.isFirstFree_free`: the search for a free name finds it.
* `Source.NameTable.names_namedUpTo`: every slot has the first form of its name that no slot before
  it has.
* `Source.NameTable.nodup_argumentNames`: the arguments of a function have different names.
* `Source.NameTable.wordOf_name_eq_iff`: which locals have the same word.
* `Source.NameTable.ofHeader_printed`: the names of a function, and what is printed of them.
-/

namespace Unscript.Source

/-! ## Forms of a name -/

/-- The forms of a name: the name itself, then the name with the numbers from two on. -/
def nameForm (base : String) : Nat → String
  | 0 => base
  | k + 1 => s!"{base}_{k + 2}"

theorem nameForm_succ (base : String) (k : Nat) :
    nameForm base (k + 1) = base ++ ("_" ++ (k + 2).repr) := by
  simp only [nameForm, String.append_assoc]
  rfl

/-- A numbered form is longer than the name itself. -/
theorem nameForm_succ_ne (base : String) (k : Nat) : nameForm base (k + 1) ≠ base := by
  intro h
  have hlength := congrArg String.length h
  simp [nameForm_succ] at hlength

/-- The forms of a name differ. -/
theorem nameForm_injective (base : String) : Function.Injective (nameForm base) := by
  intro j k h
  cases j with
  | zero =>
    cases k with
    | zero => rfl
    | succ k => exact absurd h.symm (nameForm_succ_ne base k)
  | succ j =>
    cases k with
    | zero => exact absurd h (nameForm_succ_ne base j)
    | succ k =>
      have hnumber : j + 2 = k + 2 := by simpa [nameForm_succ, Nat.repr_inj] using h
      omega

/-! ## The first free form -/

/-- The first form of a name that is not taken. The forms before it are taken, so that there are not
more of them than there are taken names. -/
structure IsFirstFree (taken : List String) (base name : String) : Prop where
  free : name ∉ taken
  first : ∃ k ≤ taken.length, name = nameForm base k ∧ ∀ j < k, nameForm base j ∈ taken

/-- Forms that are more than the taken names are not all taken. -/
theorem exists_free (taken : List String) (base : String) :
    ∃ k ≤ taken.length, nameForm base k ∉ taken := by
  by_contra h
  push Not at h
  have hforms : ((List.range (taken.length + 1)).map (nameForm base)).Nodup :=
    List.nodup_range.map (nameForm_injective base)
  have hsubset : (List.range (taken.length + 1)).map (nameForm base) ⊆ taken := by
    intro name hname
    obtain ⟨k, hk, rfl⟩ := List.mem_map.mp hname
    exact h k (Nat.lt_succ_iff.mp (List.mem_range.mp hk))
  have hlength := (hforms.subperm hsubset).length_le
  rw [List.length_map, List.length_range] at hlength
  omega

/-- **Some form of a name is free**, and one of them comes first. -/
theorem exists_first_free (taken : List String) (base : String) :
    ∃ k ≤ taken.length, nameForm base k ∉ taken ∧ ∀ j < k, nameForm base j ∈ taken := by
  obtain ⟨n, hn, hfree⟩ := exists_free taken base
  have hexists : ∃ k, nameForm base k ∉ taken := ⟨n, hfree⟩
  refine ⟨Nat.find hexists, Nat.le_trans (Nat.find_min' hexists hfree) hn,
    Nat.find_spec hexists, ?_⟩
  exact fun j hj => not_not.mp (Nat.find_min hexists hj)

/-- The first number in a range at which a search succeeds. -/
theorem findSome?_range {α : Type} {f : Nat → Option α} {n k : Nat} {a : α} (hk : k < n)
    (ha : f k = some a) (hbefore : ∀ j < k, f j = none) : (List.range n).findSome? f = some a := by
  obtain ⟨m, rfl⟩ := Nat.exists_eq_add_of_lt hk
  rw [List.findSome?_eq_some_iff]
  refine ⟨List.range k, k, (List.range m).map (k + 1 + ·), ?_, ha, by simpa using hbefore⟩
  rw [Nat.add_right_comm, List.range_add, List.range_succ, List.append_assoc]
  rfl

/-! ## Words -/

/-- What stands of a name on the line on which it begins: all before the first line break. -/
def wordOf (name : String) : String :=
  String.ofList (name.toList.takeWhile (· != '\n'))

theorem wordOf_of_unbroken {name : String} (h : '\n' ∉ name.toList) : wordOf name = name := by
  have hall : name.toList.takeWhile (· != '\n') = name.toList := by
    rw [List.takeWhile_eq_self_iff]
    intro c hc
    exact bne_iff_ne.mpr fun hbreak => h (hbreak ▸ hc)
  unfold wordOf
  rw [hall, String.ofList_toList]

theorem wordOf_append_break {word : String} (h : '\n' ∉ word.toList) (rest : String) :
    wordOf (word ++ "\n" ++ rest) = word := by
  have hall : ∀ c ∈ word.toList, (c != '\n') = true := fun c hc =>
    bne_iff_ne.mpr fun hbreak => h (hbreak ▸ hc)
  have hlist : (word ++ "\n" ++ rest).toList = word.toList ++ '\n' :: rest.toList := by
    simp
  unfold wordOf
  rw [hlist, List.takeWhile_append_of_pos hall, List.takeWhile_cons_of_neg (by simp),
    List.append_nil, String.ofList_toList]

theorem unbroken_of_isWord {cs : List Char} (h : isWord cs = true) : '\n' ∉ cs := by
  cases cs with
  | nil => exact List.not_mem_nil
  | cons c cs =>
    unfold isWord at h
    rw [Bool.and_eq_true, List.all_eq_true] at h
    rintro (_ | ⟨_, hbreak⟩)
    · exact absurd h.1 (by decide)
    · exact absurd (h.2 _ hbreak) (by decide)

theorem isWord_append {cs more : List Char} (h : isWord cs = true)
    (hmore : more.all continuesIdentifier = true) : isWord (cs ++ more) = true := by
  cases cs with
  | nil => cases h
  | cons c cs =>
    unfold isWord at h
    rw [Bool.and_eq_true] at h
    rw [List.cons_append, isWord, List.all_append, h.1, h.2, hmore]
    rfl

theorem continues_toString (n : Nat) : (toString n).toList.all continuesIdentifier = true := by
  refine List.all_eq_true.mpr fun c hc => ?_
  have hdigit := isDigit_of_mem_toDigits (n := n) (c := c) (by simpa using hc)
  simp [continuesIdentifier, Char.isAlphanum, hdigit]

/-- The forms of a word are words. -/
theorem isWord_nameForm {word : String} (h : isWord word.toList = true) (k : Nat) :
    isWord (nameForm word k).toList = true := by
  cases k with
  | zero => exact h
  | succ k =>
    rw [nameForm_succ, String.toList_append, String.toList_append]
    refine isWord_append h ?_
    rw [List.all_append, Bool.and_eq_true]
    exact ⟨by decide, continues_toString (k + 2)⟩

namespace NameTable

variable {h : Header} {taken : List String} {used : Std.HashSet String}

/-- **The search for a free name** finds the first one. -/
theorem isFirstFree_free (hused : ∀ name, name ∈ used ↔ name ∈ taken)
    (hsize : used.size = taken.length) (base : String) :
    IsFirstFree taken base (free used base) := by
  obtain ⟨k, hk, hfree, hbefore⟩ := exists_first_free taken base
  suffices hfound : free used base = nameForm base k from
    ⟨hfound ▸ hfree, k, hk, hfound, hbefore⟩
  unfold free
  cases k with
  | zero =>
    have hbase : base ∉ used := fun h => hfree ((hused base).mp h)
    simp [hbase, nameForm]
  | succ k =>
    have hbase : base ∈ used := (hused base).mpr (hbefore 0 (Nat.succ_pos k))
    have hnumbered : nameForm base (k + 1) ∉ used := fun h => hfree ((hused _).mp h)
    have hsearch : (List.range used.size).findSome? (fun k =>
        if used.contains (nameForm base (k + 1)) then none else some (nameForm base (k + 1))) =
          some (nameForm base (k + 1)) := by
      refine findSome?_range (hsize ▸ hk) (by simp [hnumbered]) fun j hj => ?_
      have htaken := (hused _).mpr (hbefore (j + 1) (Nat.succ_lt_succ hj))
      simp [htaken]
    rw [if_neg (by simpa using hbase)]
    exact congrArg (·.getD base) hsearch

/-! ## One name after the other -/

/-- The names given to the first slots of a function, and the set of them. Each is the first form of
the name its slot should have that no slot before it has. -/
structure Names (h : Header) (names : List String) (used : Std.HashSet String) : Prop where
  mem_iff : ∀ name, name ∈ used ↔ name ∈ names
  count : used.size = names.length
  first : ∀ (slot : Nat) name, names[slot]? = some name →
    IsFirstFree (names.take slot) (preferred h slot) name

/-- **One more slot** gets a name that is none of those before. -/
theorem Names.add {named : Array String × Std.HashSet String}
    (hnames : Names h named.1.toList named.2) :
    Names h (add h named named.1.size).1.toList (add h named named.1.size).2 := by
  have hnew := isFirstFree_free hnames.mem_iff hnames.count (preferred h named.1.size)
  have hunused : free named.2 (preferred h named.1.size) ∉ named.2 :=
    fun hmem => hnew.free ((hnames.mem_iff _).mp hmem)
  unfold NameTable.add
  dsimp only
  rw [Array.toList_push]
  refine ⟨fun name => ?_, ?_, fun slot name hname => ?_⟩
  · rw [Std.HashSet.mem_insert, hnames.mem_iff, List.mem_append, List.mem_singleton, beq_iff_eq,
      or_comm, eq_comm]
  · rw [Std.HashSet.size_insert, if_neg hunused, hnames.count, List.length_append,
      List.length_singleton]
  · rcases Nat.lt_or_ge slot named.1.toList.length with hslot | hslot
    · rw [List.getElem?_append_left hslot] at hname
      rw [List.take_append_of_le_length (Nat.le_of_lt hslot)]
      exact hnames.first slot name hname
    · have hlast : slot = named.1.toList.length := by
        have := (List.getElem?_eq_some_iff.mp hname).1
        simp only [List.length_append, List.length_singleton] at this
        omega
      subst hlast
      rw [List.getElem?_concat_length] at hname
      cases hname
      rw [List.take_left]
      exact hnew

/-- The names given to the slots below `n`, and the set of them. -/
def namedUpTo (h : Header) (n : Nat) : Array String × Std.HashSet String :=
  (List.range n).foldl (add h) (#[], Std.HashSet.emptyWithCapacity)

theorem namedUpTo_succ (h : Header) (n : Nat) :
    namedUpTo h (n + 1) = add h (namedUpTo h n) n := by
  simp [namedUpTo, List.range_succ]

/-- **Every slot** below `n` has a name that none before it has. -/
theorem names_namedUpTo (h : Header) (n : Nat) :
    (namedUpTo h n).1.size = n ∧ Names h (namedUpTo h n).1.toList (namedUpTo h n).2 := by
  induction n with
  | zero => exact ⟨rfl, by simp [namedUpTo], rfl, by simp [namedUpTo]⟩
  | succ n ih =>
    obtain ⟨hsize, hnames⟩ := ih
    have hadd := hnames.add
    rw [hsize] at hadd
    rw [namedUpTo_succ]
    exact ⟨(Array.size_push _).trans (congrArg (· + 1) hsize), hadd⟩

/-! ## The names of a function -/

theorem size_names (h : Header) : (ofHeader h).names.size = h.locals :=
  (names_namedUpTo h h.locals).1

theorem getElem?_names {slot : Nat} (hslot : slot < h.locals) :
    (ofHeader h).names.toList[slot]? = some ((ofHeader h).name slot) := by
  have hsize : slot < (ofHeader h).names.size := by rwa [size_names]
  simp [name, hsize]

theorem take_names {slot : Nat} (hslot : slot ≤ h.locals) :
    (ofHeader h).names.toList.take slot = (List.range slot).map (ofHeader h).name := by
  refine List.ext_getElem? fun k => ?_
  by_cases hk : k < slot
  · rw [List.getElem?_take_of_lt hk, getElem?_names (Nat.lt_of_lt_of_le hk hslot)]
    simp [hk]
  · rw [List.getElem?_eq_none (by simp; omega), List.getElem?_eq_none (by simp; omega)]

/-- **The name of a slot** is the first form of the name it should have that no slot before it has. -/
theorem isFirstFree_name {slot : Nat} (hslot : slot < h.locals) :
    IsFirstFree ((List.range slot).map (ofHeader h).name) (preferred h slot)
      ((ofHeader h).name slot) := by
  rw [← take_names (Nat.le_of_lt hslot)]
  exact (names_namedUpTo h h.locals).2.first slot _ (getElem?_names hslot)

/-- A slot has no name of a slot before it. -/
theorem name_ne_of_lt {i j : Nat} (hij : i < j) (hj : j < h.locals) :
    (ofHeader h).name i ≠ (ofHeader h).name j := by
  intro hsame
  exact (isFirstFree_name hj).free (List.mem_map.mpr ⟨i, List.mem_range.mpr hij, hsame⟩)

theorem name_inj {i j : Nat} (hi : i < h.locals) (hj : j < h.locals)
    (hsame : (ofHeader h).name i = (ofHeader h).name j) : i = j := by
  rcases Nat.lt_trichotomy i j with hij | rfl | hji
  · exact absurd hsame (name_ne_of_lt hij hj)
  · rfl
  · exact absurd hsame.symm (name_ne_of_lt hji hi)

/-- **Arguments** have different names. -/
theorem nodup_argumentNames (harguments : h.arguments ≤ h.locals) :
    (ofHeader h).argumentNames.Nodup := by
  refine List.Nodup.map_on (fun i hi j hj => ?_) List.nodup_range
  exact name_inj (Nat.lt_of_lt_of_le (List.mem_range.mp hi) harguments)
    (Nat.lt_of_lt_of_le (List.mem_range.mp hj) harguments)

/-! ## What is printed of a name -/

theorem isWord_positional (h : Header) (slot : Nat) :
    isWord (positional h slot).toList = true := by
  have hword (what : String) (hwhat : isWord what.toList = true) :
      isWord (what ++ toString slot).toList = true := by
    rw [String.toList_append]
    exact isWord_append hwhat (continues_toString slot)
  unfold positional
  split
  · exact hword "arg" (by decide)
  · exact hword "local" (by decide)

/-- The name that a slot should have is a word, or one with a line break at its end that is recorded
so. -/
theorem preferred_cases (h : Header) (slot : Nat) : ∃ word, isWord word.toList = true ∧
    (preferred h slot = word ∨
      preferred h slot = word ++ "\n" ∧ h.localNames[slot]? = some (word ++ "\n")) := by
  have hpositional := isWord_positional h slot
  unfold preferred
  cases hname : h.localNames[slot]? with
  | none => exact ⟨_, hpositional, .inl rfl⟩
  | some name =>
    dsimp only
    split
    · rename_i husable
      rw [Bool.and_eq_true] at husable
      have hword : isWord (withoutFinalBreak name.toList) = true := husable.1
      unfold withoutFinalBreak at hword
      split at hword
      · rename_i hlast
        obtain ⟨cs, hcs⟩ := List.getLast?_eq_some_iff.mp hlast
        rw [hcs, List.dropLast_concat] at hword
        have hbroken : name = String.ofList cs ++ "\n" := by
          rw [← String.toList_inj, hcs]
          simp
        exact ⟨String.ofList cs, by rwa [String.toList_ofList], .inr ⟨hbroken, by rw [hbroken]⟩⟩
      · exact ⟨name, hword, .inl rfl⟩
    · exact ⟨_, hpositional, .inl rfl⟩

/-- A word is used with a line break at its end where it is recorded so. -/
theorem preferred_eq_break_iff {slot : Nat} {word : String} (hword : isWord word.toList = true) :
    preferred h slot = word ++ "\n" ↔ h.localNames[slot]? = some (word ++ "\n") := by
  constructor
  · intro hbroken
    obtain ⟨word', hword', hpreferred | ⟨hpreferred, hname⟩⟩ := preferred_cases h slot
    · refine absurd ?_ (unbroken_of_isWord hword')
      rw [← hpreferred, hbroken]
      simp
    · rw [hname, ← hpreferred, hbroken]
  · intro hname
    have hidentifier : isIdentifier (word ++ "\n") = true := by
      unfold isIdentifier withoutFinalBreak
      simpa using hword
    have hkeyword : word ++ "\n" ∉ keywords := by
      have hunbroken : ∀ k ∈ keywords, '\n' ∉ k.toList := by decide
      exact fun hmem => hunbroken _ hmem (by simp)
    unfold preferred
    rw [hname]
    simp [hidentifier, hkeyword]

/-- A line break at the end of a word stays behind the word in every form of the name. -/
theorem wordOf_nameForm_break {word : String} (hword : isWord word.toList = true) (k : Nat) :
    wordOf (nameForm (word ++ "\n") k) = word := by
  have hunbroken := unbroken_of_isWord hword
  cases k with
  | zero => simpa [nameForm] using wordOf_append_break hunbroken ""
  | succ k =>
    rw [nameForm_succ]
    exact wordOf_append_break hunbroken _

/-- The word of a name, and whether the name has anything behind it. -/
theorem name_cases {slot : Nat} (hslot : slot < h.locals) :
    isWord (wordOf ((ofHeader h).name slot)).toList = true ∧
      (wordOf ((ofHeader h).name slot) = (ofHeader h).name slot ∨
        h.localNames[slot]? = some (wordOf ((ofHeader h).name slot) ++ "\n")) := by
  obtain ⟨k, -, hname, -⟩ := (isFirstFree_name hslot).first
  obtain ⟨word, hword, hpreferred | ⟨hpreferred, hrecorded⟩⟩ := preferred_cases h slot
  · have hform : isWord ((ofHeader h).name slot).toList = true := by
      rw [hname, hpreferred]
      exact isWord_nameForm hword k
    rw [wordOf_of_unbroken (unbroken_of_isWord hform)]
    exact ⟨hform, .inl rfl⟩
  · have hwordOf : wordOf ((ofHeader h).name slot) = word := by
      rw [hname, hpreferred]
      exact wordOf_nameForm_break hword k
    rw [hwordOf]
    exact ⟨hword, .inr hrecorded⟩

/-- A slot whose name is recorded as a word with a line break at its end has that word. -/
theorem wordOf_name_of_recorded {slot : Nat} {word : String} (hslot : slot < h.locals)
    (hword : isWord word.toList = true) (hname : h.localNames[slot]? = some (word ++ "\n")) :
    wordOf ((ofHeader h).name slot) = word := by
  obtain ⟨k, -, hform, -⟩ := (isFirstFree_name hslot).first
  rw [hform, (preferred_eq_break_iff hword).mpr hname]
  exact wordOf_nameForm_break hword k

/-- **Two locals have the same word** just when one of them is recorded as that word with a line break
behind it. -/
theorem wordOf_name_eq_iff {i j : Nat} (hi : i < h.locals) (hj : j < h.locals) :
    wordOf ((ofHeader h).name i) = wordOf ((ofHeader h).name j) ↔ i = j ∨
      h.localNames[i]? = some (wordOf ((ofHeader h).name j) ++ "\n") ∨
      h.localNames[j]? = some (wordOf ((ofHeader h).name i) ++ "\n") := by
  obtain ⟨hwordi, hcasei⟩ := name_cases hi
  obtain ⟨hwordj, hcasej⟩ := name_cases hj
  constructor
  · intro hsame
    rcases hcasei with hplaini | hrecorded
    · rcases hcasej with hplainj | hrecorded
      · rw [hplaini, hplainj] at hsame
        exact .inl (name_inj hi hj hsame)
      · exact .inr (.inr (hsame ▸ hrecorded))
    · exact .inr (.inl (hsame ▸ hrecorded))
  · rintro (rfl | hrecorded | hrecorded)
    · rfl
    · exact wordOf_name_of_recorded hi hwordj hrecorded
    · exact (wordOf_name_of_recorded hj hwordi hrecorded).symm

/-- **The names of locals.** Whatever names are recorded, every slot of a function has a name: the
first form of the name it should have that no slot before it has, found after no more forms than there
are such slots. So no two locals have the same name. A local is printed as its name. What stands of
two names on their lines differs as well, unless the name recorded for one of the two locals is what
stands of the other with a line break behind it. -/
theorem ofHeader_printed (h : Header) :
    (ofHeader h).names.size = h.locals ∧
    (∀ slot < h.locals, IsFirstFree ((List.range slot).map (ofHeader h).name) (preferred h slot)
      ((ofHeader h).name slot)) ∧
    (∀ i < h.locals, ∀ j < h.locals, (ofHeader h).name i = (ofHeader h).name j → i = j) ∧
    (∀ s : Scope, s.names = ofHeader h → ∀ slot < h.locals,
      s.expr (.slot slot) = .ok ((ofHeader h).name slot)) ∧
    ∀ i < h.locals, ∀ j < h.locals,
      (wordOf ((ofHeader h).name i) = wordOf ((ofHeader h).name j) ↔ i = j ∨
        h.localNames[i]? = some (wordOf ((ofHeader h).name j) ++ "\n") ∨
        h.localNames[j]? = some (wordOf ((ofHeader h).name i) ++ "\n")) := by
  refine ⟨size_names h, fun _ => isFirstFree_name, fun i hi j hj => name_inj hi hj, ?_,
    fun i hi j hj => wordOf_name_eq_iff hi hj⟩
  intro s hs slot _
  unfold Scope.expr
  rw [Scope.write_slot, hs]
  rfl

/-- Two locals, the second of which is recorded as the first with a line break behind it. -/
def brokenTwins : Header where
  locals := 2
  localNames := ["x", "x\n"]

theorem name_brokenTwins : (ofHeader brokenTwins).name 0 = "x" := by
  obtain ⟨k, hk, hname, -⟩ := (isFirstFree_name (h := brokenTwins) (by decide : 0 < 2)).first
  obtain rfl : k = 0 := Nat.le_zero.mp hk
  rw [hname]
  decide

/-- What is printed of two locals can be the same. -/
theorem not_forall_wordOf_ne : ¬ ∀ h : Header, ∀ i < h.locals, ∀ j < h.locals,
    wordOf ((ofHeader h).name i) = wordOf ((ofHeader h).name j) → i = j := by
  intro hall
  have hsame : wordOf ((ofHeader brokenTwins).name 0) = wordOf ((ofHeader brokenTwins).name 1) := by
    rw [wordOf_name_eq_iff (by decide) (by decide), name_brokenTwins]
    exact .inr (.inr (by decide))
  exact absurd (hall brokenTwins 0 (by decide) 1 (by decide) hsame) (by decide)

end NameTable

end Unscript.Source
