import Mathlib.Data.List.TakeWhile
import Unscript.Proofs.Source.Phrase

/-!
# Texts of leaves

The texts that stand for constants, names and other leaves of an expression, as tokens: none is a
sign or a word that begins a construct, none begins like an operator, and none is broken.

* `Source.IsLeaf`: what a token has to be.

Results:
* `Source.IsLeaf.of_isPlain`: identifiers that are no keywords are leaves.
* `Source.isLeaf_literal`: so are literals, behind a minus sign that they may have.
* `Source.exists_subscript_of_isPlain`: the only literals that are names are functions of the unit.
-/

namespace Unscript.Source

open Number (Double Layout Decimal)

/-- Whether a text is an identifier and no keyword. -/
def isPlain (s : String) : Bool :=
  isWord s.toList && !keywords.contains s

/-- The words that begin a construct, stand for a step of one, or declare a variable. -/
def blockWords : List String :=
  ["if", "elif", "else", "while", "for", "match", "return", "break", "continue", "pass", "var"]

/-- The word that characters begin with, which may be empty. -/
def firstWord (cs : List Char) : List Char :=
  cs.takeWhile continuesIdentifier

/-- Whether a leaf can begin with a character. -/
def opensLeaf (c : Char) : Bool :=
  startsIdentifier c || c.isDigit || c == '"' || c == '('

/-- A token that is a leaf. -/
structure IsLeaf (t : String) : Prop where
  head : t.toList.head?.any opensLeaf = true
  free : t ∉ Phrase.reserved
  word : String.ofList (firstWord t.toList) ∉ blockWords
  unbroken : '\n' ∉ t.toList

/-- Leaves that are always written alike. -/
def fixedLeaves : List String :=
  ["null", "false", "true", "self", "yield", "NAN", "INF", "PI", "TAU", "(0.0 / 0.0)", "(1.0 / 0.0)",
    "(-1.0 / 0.0)"]

theorem isLeaf_of_mem {t : String} (h : t ∈ fixedLeaves) : IsLeaf t := by
  have hall : ∀ t ∈ fixedLeaves, t.toList.head?.any opensLeaf = true ∧ t ∉ Phrase.reserved ∧
      String.ofList (firstWord t.toList) ∉ blockWords ∧ '\n' ∉ t.toList := by
    decide
  obtain ⟨h1, h2, h3, h4⟩ := hall t h
  exact ⟨h1, h2, h3, h4⟩

/-! ## Names -/

theorem continuesIdentifier_of_starts {c : Char} (h : startsIdentifier c = true) :
    continuesIdentifier c = true := by
  simp only [startsIdentifier, continuesIdentifier, Char.isAlphanum, Bool.or_eq_true] at h ⊢
  tauto

/-- The characters that an identifier can begin with. -/
theorem bounds_of_startsIdentifier {c : Char} (h : startsIdentifier c = true) :
    (65 ≤ c.toNat ∧ c.toNat ≤ 90) ∨ (97 ≤ c.toNat ∧ c.toNat ≤ 122) ∨ c = '_' := by
  rcases Bool.or_eq_true_iff.mp h with halpha | hmark
  · rcases Bool.or_eq_true_iff.mp halpha with hupper | hlower
    · exact .inl (of_decide_eq_true hupper)
    · obtain ⟨hge, hle⟩ := Bool.and_eq_true_iff.mp hlower
      exact .inr (.inl ⟨of_decide_eq_true hge, of_decide_eq_true hle⟩)
  · exact .inr (.inr (eq_of_beq hmark))

theorem isWord_iff {cs : List Char} :
    isWord cs = true ↔
      cs.head?.any startsIdentifier = true ∧ ∀ c ∈ cs, continuesIdentifier c = true := by
  cases cs with
  | nil => simp [isWord]
  | cons c cs =>
    simp only [isWord, Bool.and_eq_true, List.all_eq_true, List.head?_cons, Option.any_some,
      List.mem_cons, forall_eq_or_imp]
    exact ⟨fun h => ⟨h.1, continuesIdentifier_of_starts h.1, h.2⟩, fun h => ⟨h.1, h.2.2⟩⟩

theorem firstWord_of_isWord {cs : List Char} (h : isWord cs = true) : firstWord cs = cs :=
  List.takeWhile_eq_self_iff.mpr (isWord_iff.mp h).2

/-- A word of the language that is reserved is a keyword. -/
theorem mem_keywords_of_mem_reserved :
    ∀ t ∈ Phrase.reserved, isWord t.toList = true → t ∈ keywords := by
  decide

theorem blockWords_subset : blockWords ⊆ keywords := by
  decide

theorem IsLeaf.of_isPlain {t : String} (h : isPlain t = true) : IsLeaf t := by
  simp only [isPlain, Bool.and_eq_true, Bool.not_eq_true', List.contains_eq_mem,
    decide_eq_false_iff_not] at h
  obtain ⟨hword, hkey⟩ := h
  obtain ⟨hhead, hall⟩ := isWord_iff.mp hword
  refine ⟨?_, fun hm => hkey (mem_keywords_of_mem_reserved t hm hword), ?_, fun hm => ?_⟩
  · cases ht : t.toList.head? with
    | none => simp [ht] at hhead
    | some c =>
      rw [ht, Option.any_some] at hhead
      simp [opensLeaf, hhead]
  · rw [firstWord_of_isWord hword, String.ofList_toList]
    exact fun hm => hkey (blockWords_subset hm)
  · exact absurd (hall _ hm) (by decide)

/-! ## Numbers -/

/-- Whether a character can stand in a number. -/
def isFigure (c : Char) : Bool :=
  c.isDigit || c == '.' || c == 'e' || c == '+' || c == '-'

/-- Characters of a number without a sign: a digit, and figures behind it. -/
structure IsNumber (cs : List Char) : Prop where
  head : cs.head?.any Char.isDigit = true
  figures : ∀ c ∈ cs, isFigure c = true

theorem isNumber_cons {c : Char} {cs : List Char} (hc : c.isDigit = true)
    (hcs : ∀ d ∈ cs, isFigure d = true) : IsNumber (c :: cs) := by
  refine ⟨by simpa using hc, fun d hd => ?_⟩
  rcases List.mem_cons.mp hd with rfl | hd
  · simp [isFigure, hc]
  · exact hcs d hd

theorem isNumber_iff {cs : List Char} :
    IsNumber cs ↔ ∃ c ds, cs = c :: ds ∧ c.isDigit = true ∧ ∀ d ∈ ds, isFigure d = true := by
  constructor
  · intro h
    cases cs with
    | nil => simpa using h.head
    | cons c ds =>
      exact ⟨c, ds, rfl, by simpa using h.head, fun d hd => h.figures d (List.mem_cons_of_mem _ hd)⟩
  · rintro ⟨c, ds, rfl, hc, hds⟩
    exact isNumber_cons hc hds

theorem isFigure_of_isDigit {c : Char} (h : c.isDigit = true) : isFigure c = true := by
  simp [isFigure, h]

theorem isNumber_of_digits {cs : List Char} (hne : cs ≠ []) (h : ∀ c ∈ cs, c.isDigit = true) :
    IsNumber cs := by
  obtain ⟨c, ds, rfl⟩ := List.exists_cons_of_ne_nil hne
  exact isNumber_cons (h c List.mem_cons_self)
    fun d hd => isFigure_of_isDigit (h d (List.mem_cons_of_mem _ hd))

theorem isDigit_of_mem_toDigits {n : Nat} {c : Char} (h : c ∈ Nat.toDigits 10 n) :
    c.isDigit = true :=
  Nat.isDigit_of_mem_toDigits (by decide) (by decide) h

theorem isNumber_toDigits (n : Nat) : IsNumber (Nat.toDigits 10 n) :=
  isNumber_of_digits Nat.toDigits_ne_nil fun _ => isDigit_of_mem_toDigits

theorem IsNumber.append {cs ds : List Char} (h : IsNumber cs) (hds : ∀ d ∈ ds, isFigure d = true) :
    IsNumber (cs ++ ds) := by
  obtain ⟨c, rest, rfl, hc, hrest⟩ := isNumber_iff.mp h
  refine isNumber_cons hc fun d hd => ?_
  rcases List.mem_append.mp hd with hd | hd
  · exact hrest d hd
  · exact hds d hd

theorem IsNumber.take {cs : List Char} (h : IsNumber cs) {n : Nat} (hn : 0 < n) :
    IsNumber (cs.take n) := by
  obtain ⟨c, rest, rfl, hc, hrest⟩ := isNumber_iff.mp h
  obtain ⟨n, rfl⟩ := Nat.exists_eq_succ_of_ne_zero (Nat.pos_iff_ne_zero.mp hn)
  exact isNumber_cons hc fun d hd => hrest d (List.mem_of_mem_take hd)

theorem isFigure_of_mem_replicate {n : Nat} {c : Char} (h : c ∈ List.replicate n '0') :
    isFigure c = true := by
  rw [List.eq_of_mem_replicate h]
  rfl

theorem isNumber_mantissa {cs : List Char} : cs ≠ [] → (∀ c ∈ cs, c.isDigit = true) →
    IsNumber (match cs with
      | [] => []
      | [c] => [c]
      | c :: rest => c :: '.' :: rest) := by
  intro hne h
  have hcs := isNumber_of_digits hne h
  match cs with
  | [] => exact absurd rfl hne
  | [c] => exact hcs
  | c :: c' :: rest =>
    refine isNumber_cons (h c List.mem_cons_self) fun d hd => ?_
    rcases List.mem_cons.mp hd with rfl | hd
    · rfl
    · exact hcs.figures d (List.mem_cons_of_mem _ hd)

/-- The layout of digits is a number. -/
theorem isNumber_layout (l : Layout) {cs : List Char} (hne : cs ≠ [])
    (h : ∀ c ∈ cs, c.isDigit = true) (e : Int) : IsNumber (l.digits cs e) := by
  have hcs := isNumber_of_digits hne h
  have hpoint : ∀ c ∈ ['.', '0'], isFigure c = true := by simp [isFigure]
  unfold Layout.digits
  dsimp only
  split_ifs with hpositional hneg hlength hsign
  · refine isNumber_cons (by decide) fun d hd => ?_
    rcases List.mem_append.mp hd with hd | hd
    · rcases List.mem_cons.mp hd with rfl | hd
      · rfl
      · exact isFigure_of_mem_replicate hd
    · exact hcs.figures d hd
  · rw [List.append_assoc]
    refine hcs.append fun d hd => ?_
    rcases List.mem_append.mp hd with hd | hd
    · exact isFigure_of_mem_replicate hd
    · exact hpoint d hd
  · refine (hcs.take (Nat.succ_pos _)).append fun d hd => ?_
    rcases List.mem_cons.mp hd with rfl | hd
    · rfl
    · exact hcs.figures d (List.mem_of_mem_drop hd)
  all_goals
    rw [List.append_assoc]
    refine (isNumber_mantissa hne h).append fun d hd => ?_
    simp only [List.cons_append, List.mem_cons, List.mem_append] at hd
    rcases hd with rfl | rfl | hd | hd
    · rfl
    · rfl
    · exact isFigure_of_mem_replicate hd
    · exact isFigure_of_isDigit (isDigit_of_mem_toDigits hd)

/-- The sign of a number. -/
def minus (negative : Bool) : List Char :=
  if negative then ['-'] else []

/-- A finite floating point number is written as a number behind its sign. -/
theorem text_toList {d : Double} (hnan : d.isNaN = false) (hinf : d.isInfinite = false) :
    ∃ cs, IsNumber cs ∧ d.text.toList = minus d.isNegative ++ cs := by
  have hsign : (if d.isNegative = true then "-" else "").toList = minus d.isNegative := by
    cases d.isNegative <;> rfl
  unfold Double.text Double.textIn
  simp only [hnan, hinf, Bool.false_eq_true, if_false]
  by_cases hzero : d.isZero = true
  · rw [if_pos hzero, String.toList_append, hsign]
    exact ⟨['0', '.', '0'], isNumber_cons rfl (by simp [isFigure]), rfl⟩
  · rw [if_neg hzero, String.toList_append, hsign, String.toList_ofList]
    exact ⟨_, isNumber_layout _ Nat.toDigits_ne_nil (fun _ => isDigit_of_mem_toDigits) _, rfl⟩

/-- A point is put into a number behind its sign. -/
theorem withPoint_toList {text : String} {negative : Bool} {cs : List Char} (hcs : IsNumber cs)
    (h : text.toList = minus negative ++ cs) :
    ∃ ds, IsNumber ds ∧ (withPoint text).toList = minus negative ++ ds := by
  obtain ⟨c, rest, rfl, hc, hrest⟩ := isNumber_iff.mp hcs
  have hne : c ≠ 'e' := by
    rintro rfl
    exact absurd hc (by decide)
  unfold withPoint
  simp only
  split_ifs with hpoint
  · exact ⟨_, hcs, h⟩
  · have hdigits : text.toList.takeWhile (· != 'e') =
        minus negative ++ c :: rest.takeWhile (· != 'e') := by
      rw [h]
      cases negative <;> simp [minus, hne]
    refine ⟨c :: rest.takeWhile (· != 'e') ++ ['.', '0'] ++ rest.drop (rest.takeWhile (· != 'e')).length,
      ?_, ?_⟩
    · refine isNumber_cons hc fun d hd => ?_
      rcases List.mem_append.mp hd with hd | hd
      · rcases List.mem_append.mp hd with hd | hd
        · exact hrest d ((List.takeWhile_prefix _).subset hd)
        · exact (by simp [isFigure] : ∀ c ∈ ['.', '0'], isFigure c = true) d hd
      · exact hrest d (List.mem_of_mem_drop hd)
    · rw [String.toList_ofList, hdigits, h]
      cases negative <;> simp [minus]

theorem IsNumber.isLeaf {cs : List Char} (h : IsNumber cs) : IsLeaf (String.ofList cs) := by
  obtain ⟨c, rest, rfl, hc, hrest⟩ := isNumber_iff.mp h
  have hword : continuesIdentifier c = true := by
    simp [continuesIdentifier, Char.isAlphanum, hc]
  refine ⟨by simp [opensLeaf, hc], fun hm => ?_, fun hm => ?_, fun hm => ?_⟩
  · have := (by decide : ∀ t ∈ Phrase.reserved, t.toList.head?.any Char.isDigit = false) _ hm
    simp [hc] at this
  · have := (by decide : ∀ t ∈ blockWords, t.toList.head?.any Char.isDigit = false) _ hm
    simp [firstWord, hword, hc] at this
  · rw [String.toList_ofList] at hm
    exact absurd (h.figures _ hm) (by decide)

/-! ## Texts in quotes -/

theorem escapedChar_unbroken (c : Char) : '\n' ∉ escapedChar c := by
  unfold escapedChar
  split
  all_goals try decide
  next hc _ _ _ _ _ _ =>
    split_ifs with h
    · have hsmall : c.toNat < 128 := by omega
      have := (by decide +kernel : ∀ n < 128, '\n' ∉ (Text.hexPadded 4 n).toList) _ hsmall
      simpa using this
    · simpa using fun h => hc h.symm

theorem stringLiteral_toList (s : String) :
    (stringLiteral s).toList = '"' :: s.toList.flatMap escapedChar ++ ['"'] := by
  simp [stringLiteral]

theorem stringLiteral_unbroken (s : String) : '\n' ∉ (stringLiteral s).toList := by
  simp [stringLiteral_toList, escapedChar_unbroken]

theorem isLeaf_stringLiteral (s : String) : IsLeaf (stringLiteral s) := by
  refine ⟨by simp [stringLiteral_toList, opensLeaf], fun hm => ?_, ?_, stringLiteral_unbroken s⟩
  · have := (by decide : ∀ t ∈ Phrase.reserved, t.toList.head? ≠ some '"') _ hm
    simp [stringLiteral_toList] at this
  · rw [stringLiteral_toList]
    exact (by decide : String.ofList [] ∉ blockWords)

theorem isLeaf_preload (s : String) : IsLeaf ("preload(" ++ stringLiteral s ++ ")") := by
  refine ⟨?_, fun hm => ?_, ?_, ?_⟩
  · simp [opensLeaf, startsIdentifier]
  · have := (by decide : ∀ t ∈ Phrase.reserved, t.toList.head? ≠ some 'p') _ hm
    simp at this
  · have : firstWord ("preload(" ++ stringLiteral s ++ ")").toList = "preload".toList := by
      simp [firstWord, continuesIdentifier]
    rw [this]
    decide
  · simp [stringLiteral_unbroken]

/-! ## Numbered names -/

theorem isPlain_numbered {base : String} (h : isWord base.toList = true) (n : Nat) :
    isPlain (base ++ toString n) = true := by
  obtain ⟨hhead, hall⟩ := isWord_iff.mp h
  have hdigits : (toString n).toList = Nat.toDigits 10 n := by simp
  obtain ⟨d, ds, hd⟩ := List.exists_cons_of_ne_nil (Nat.toDigits_ne_nil (n := n) (b := 10))
  have hdigit : d.isDigit = true := isDigit_of_mem_toDigits (by rw [hd]; exact List.mem_cons_self)
  simp only [isPlain, Bool.and_eq_true, Bool.not_eq_true', List.contains_eq_mem,
    decide_eq_false_iff_not, isWord_iff, String.toList_append, hdigits]
  refine ⟨⟨?_, fun c hc => ?_⟩, fun hm => ?_⟩
  · cases hb : base.toList with
    | nil => simp [hb] at hhead
    | cons c cs => simpa [hb] using hhead
  · rcases List.mem_append.mp hc with hc | hc
    · exact hall c hc
    · simp [continuesIdentifier, Char.isAlphanum, isDigit_of_mem_toDigits hc]
  · have hall : keywords.all (fun k => k.toList.all fun c => !c.isDigit) = true := by decide
    have hbase := List.all_eq_true.mp (List.all_eq_true.mp hall _ hm) d (by simp [hd])
    simp [hdigit] at hbase

/-! ## Literals -/

/-- Whether a constant can stand in source text, a function of the unit by a plain name. -/
def Scope.Writable (s : Scope) : Constant → Prop
  | .subscript i => ∀ name, s.functions[i]? = some name → isPlain name = true
  | .foreign _ => False
  | _ => True

/-- A floating point number is a number behind its sign; infinities and numbers that are none have
fixed texts. -/
theorem floatLiteral_eq (supports : String → Bool) (d : Double) :
    ∃ negative cs, floatLiteral supports d = String.ofList (minus negative ++ cs) ∧
      (IsNumber cs ∨ String.ofList cs ∈ fixedLeaves) := by
  unfold floatLiteral
  have whole {text : String} (ht : text ∈ fixedLeaves) : ∃ negative cs,
      text = String.ofList (minus negative ++ cs) ∧
        (IsNumber cs ∨ String.ofList cs ∈ fixedLeaves) :=
    ⟨false, text.toList, by simp [minus], .inr (by simpa using ht)⟩
  split_ifs with hnan _ hinf _ hneg _ hneg
  · exact whole (by simp [fixedLeaves])
  · exact whole (by simp [fixedLeaves])
  · exact ⟨true, "INF".toList, rfl, .inr (by simp [fixedLeaves])⟩
  iterate 5 exact whole (by simp [fixedLeaves])
  · obtain ⟨cs, hcs, htext⟩ := text_toList (Bool.eq_false_iff.mpr hnan) (Bool.eq_false_iff.mpr hinf)
    obtain ⟨ds, hds, hpoint⟩ := withPoint_toList hcs htext
    exact ⟨_, ds, by rw [← hpoint, String.ofList_toList], .inl hds⟩

theorem isLeaf_floatLiteral (supports : String → Bool) (d : Double) :
    ∃ negative cs, floatLiteral supports d = String.ofList (minus negative ++ cs) ∧
      IsLeaf (String.ofList cs) := by
  obtain ⟨negative, cs, htext, hnumber | hfixed⟩ := floatLiteral_eq supports d
  · exact ⟨negative, cs, htext, hnumber.isLeaf⟩
  · exact ⟨negative, cs, htext, isLeaf_of_mem hfixed⟩

theorem isLeaf_literal {s : Scope} {c : Constant} (h : s.Writable c) :
    ∃ negative cs, s.literal c = .ok (String.ofList (minus negative ++ cs)) ∧
      IsLeaf (String.ofList cs) := by
  have whole {text : String} (ht : IsLeaf text) (hc : s.literal c = .ok text) :
      ∃ negative cs, s.literal c = .ok (String.ofList (minus negative ++ cs)) ∧
        IsLeaf (String.ofList cs) :=
    ⟨false, text.toList, by rw [hc]; simp [minus], by rwa [String.ofList_toList]⟩
  cases c with
  | nil => exact whole (isLeaf_of_mem (by simp [fixedLeaves]) : IsLeaf "null") rfl
  | bool b =>
    cases b with
    | false => exact whole (isLeaf_of_mem (by simp [fixedLeaves]) : IsLeaf "false") rfl
    | true => exact whole (isLeaf_of_mem (by simp [fixedLeaves]) : IsLeaf "true") rfl
  | int n =>
    cases n with
    | ofNat n =>
      have htext : toString (Int.ofNat n) = String.ofList (minus false ++ Nat.toDigits 10 n) := by
        simp [minus, Int.repr, Nat.repr]
      exact ⟨false, _, congrArg Except.ok htext, (isNumber_toDigits n).isLeaf⟩
    | negSucc n =>
      have htext : toString (Int.negSucc n) =
          String.ofList (minus true ++ Nat.toDigits 10 (n + 1)) := by
        simp [minus, Int.repr, Nat.repr]
      exact ⟨true, _, congrArg Except.ok htext, (isNumber_toDigits (n + 1)).isLeaf⟩
  | float d =>
    obtain ⟨negative, cs, htext, hleaf⟩ := isLeaf_floatLiteral s.dialect.supports d
    exact ⟨negative, cs, congrArg Except.ok htext, hleaf⟩
  | string text => exact whole (isLeaf_stringLiteral text) rfl
  | resource path => exact whole (isLeaf_preload path) rfl
  | subscript i =>
    refine whole (IsLeaf.of_isPlain ?_) rfl
    cases hi : s.functions[i]? with
    | none => exact isPlain_numbered (by decide : isWord "func_".toList = true) i
    | some name => exact h name hi
  | foreign kind => exact h.elim

/-! ## Literals that are names -/

theorem isPlain_eq_false_of_mem {t : String} {c : Char} (hc : c ∈ t.toList)
    (hsign : continuesIdentifier c = false) : isPlain t = false := by
  rw [Bool.eq_false_iff]
  intro hplain
  have hall := (isWord_iff.mp (Bool.and_eq_true_iff.mp hplain).1).2 c hc
  rw [hsign] at hall
  cases hall

theorem IsNumber.isPlain_eq_false {cs : List Char} (h : IsNumber cs) (negative : Bool) :
    isPlain (String.ofList (minus negative ++ cs)) = false := by
  cases negative with
  | true => exact isPlain_eq_false_of_mem (c := '-') (by simp [minus]) (by decide)
  | false =>
    obtain ⟨c, ds, rfl, hc, -⟩ := isNumber_iff.mp h
    have hletter : startsIdentifier c = false := by
      rw [Bool.eq_false_iff]
      intro hstarts
      have hdigit : 48 ≤ c.toNat ∧ c.toNat ≤ 57 := Char.isDigit_iff_toNat.mp hc
      rcases bounds_of_startsIdentifier hstarts with hupper | hlower | rfl
      · omega
      · omega
      · exact absurd hc (by decide)
    simp [isPlain, minus, isWord, hletter]

/-- **Only functions of the unit are written as names.** -/
theorem exists_subscript_of_isPlain {s : Scope} {c : Constant} {text : String}
    (h : s.literal c = .ok text) (hplain : isPlain text = true) : ∃ i, c = .subscript i := by
  have hnot : ∀ t ∈ fixedLeaves, ∀ negative,
      isPlain (String.ofList (minus negative ++ t.toList)) = false := by
    decide
  refine Classical.byContradiction fun hne => absurd hplain (Bool.eq_false_iff.mp ?_)
  cases c with
  | nil =>
    cases h
    decide
  | bool b =>
    cases h
    cases b <;> decide
  | int n =>
    cases h
    cases n with
    | ofNat n => simpa [minus, Int.repr, Nat.repr] using (isNumber_toDigits n).isPlain_eq_false false
    | negSucc n =>
      simpa [minus, Int.repr, Nat.repr] using (isNumber_toDigits (n + 1)).isPlain_eq_false true
  | float d =>
    cases h
    obtain ⟨negative, cs, htext, hnumber | hfixed⟩ := floatLiteral_eq s.dialect.supports d
    · rw [htext]
      exact hnumber.isPlain_eq_false negative
    · rw [htext]
      simpa using hnot _ hfixed negative
  | string text =>
    cases h
    exact isPlain_eq_false_of_mem (c := '"') (by simp [stringLiteral]) (by decide)
  | resource path =>
    cases h
    exact isPlain_eq_false_of_mem (c := '(') (by simp) (by decide)
  | subscript i => exact absurd ⟨i, rfl⟩ hne
  | foreign kind => cases h

end Unscript.Source
