import Unscript.Proofs.Source.Literals
import Unscript.Proofs.Text.Hexadecimal

/-!
# String literals read back

A string literal is a text between two quotes. In the text a backslash begins an escape: a short one
of one more character, or one of `u` and four hexadecimal digits. A quote that no backslash escapes
ends the literal. A reader that knows no more than that gets back what was written, whatever the
text holds, since the quotes and backslashes of the text are escaped themselves.

* `Source.shortEscapes`: the characters that make up short escapes.
* `Source.readQuoted`: reads a text up to the first bare quote and undoes its escapes;
  `Source.readLiteral` reads a literal at the beginning of a text.
* `Source.bareQuotes`: the places of the quotes that are not escaped.
* `Source.Spelling`: how a character may be spelled in a literal.

Results:
* `Source.spelling_escapedChar`: every character is spelled in one of these ways.
* `Source.readQuoted_flatMap`: a text is read up to the quote behind it.
* `Source.stringLiteral_reads_back`: a string literal is one literal of visible characters, and
  reads back as its text.
-/

namespace Unscript.Source

/-! ## Reading a literal -/

/-- The characters that follow a backslash in a short escape, with what they stand for. -/
def shortEscapes : List (Char × Char) :=
  [('\\', '\\'), ('"', '"'), ('n', '\n'), ('t', '\t'), ('r', '\r'), ('a', '\x07'), ('b', '\x08'),
    ('f', '\x0c'), ('v', '\x0b')]

/-- The character whose code point hexadecimal digits stand for. -/
def codePoint? (digits : List Char) : Option Char := do
  let n := Text.numberOf 0 (← digits.mapM Text.hexDigitValue?)
  if n.isValidChar then some (Char.ofNat n) else none

/-- Reads a text up to the first quote that is not escaped and undoes its escapes. The second part
of the answer is what stands behind the quote. -/
def readQuoted : List Char → Option (List Char × List Char)
  | '"' :: rest => some ([], rest)
  | '\\' :: 'u' :: a :: b :: c :: d :: rest => do
    let point ← codePoint? [a, b, c, d]
    let (text, behind) ← readQuoted rest
    return (point :: text, behind)
  | '\\' :: e :: rest => do
    let c ← shortEscapes.lookup e
    let (text, behind) ← readQuoted rest
    return (c :: text, behind)
  | ['\\'] => none
  | c :: rest => do
    let (text, behind) ← readQuoted rest
    return (c :: text, behind)
  | [] => none

/-- Reads a literal at the beginning of a text. -/
def readLiteral : List Char → Option (List Char × List Char)
  | '"' :: rest => readQuoted rest
  | _ => none

/-- The places, counted from `n`, of the quotes that are not escaped. The first character is escaped
if a backslash that is not escaped itself stands before it. -/
def bareQuotesFrom (n : Nat) : (escaped : Bool) → List Char → List Nat
  | _, [] => []
  | true, _ :: cs => bareQuotesFrom (n + 1) false cs
  | false, c :: cs =>
    if c = '"' then n :: bareQuotesFrom (n + 1) false cs
    else bareQuotesFrom (n + 1) (c == '\\') cs

/-- The places of the quotes that are not escaped. -/
def bareQuotes (cs : List Char) : List Nat :=
  bareQuotesFrom 0 false cs

/-- A character that is no control character of ASCII. -/
def IsVisible (c : Char) : Prop :=
  0x20 ≤ c.toNat ∧ c.toNat ≠ 0x7f

instance : DecidablePred IsVisible := fun c =>
  inferInstanceAs (Decidable (0x20 ≤ c.toNat ∧ c.toNat ≠ 0x7f))

/-! ## The spelling of a character -/

/-- How a character may be spelled: as it is, by a short escape, or by four digits. -/
inductive Spelling : Char → List Char → Prop where
  | plain {c : Char} (hquote : c ≠ '"') (hmark : c ≠ '\\') (hvisible : IsVisible c) : Spelling c [c]
  | short {e c : Char} (h : (e, c) ∈ shortEscapes) : Spelling c ['\\', e]
  | code {c : Char} {ds : List Nat} (hdigits : ∀ d ∈ ds, d < 16) (hlength : ds.length = 4)
      (hnumber : Text.numberOf 0 ds = c.toNat) : Spelling c ('\\' :: 'u' :: ds.map Nat.digitChar)

/-- A control character is below 128, so that four digits are enough for it. -/
theorem spelling_code {c : Char} (h : c.toNat < 0x20 ∨ c.toNat = 0x7f) :
    Spelling c ('\\' :: 'u' :: (Text.hexPadded 4 c.toNat).toList) := by
  obtain ⟨ds, hdigits, hcolumn, hnumber⟩ := Text.hexPadded_eq_map 4 c.toNat
  have hlength : (Text.hexPadded 4 c.toNat).length = 4 :=
    (Text.length_hexPadded (by decide)).mpr (by omega)
  rw [← String.length_toList, hcolumn, List.length_map] at hlength
  rw [hcolumn]
  exact .code hdigits hlength hnumber

/-- **Every character** is spelled in one of the three ways. -/
theorem spelling_escapedChar (c : Char) : Spelling c (escapedChar c) := by
  unfold escapedChar
  split
  case h_10 hmark hquote _ _ _ _ _ _ _ =>
    split_ifs with hcontrol
    · exact spelling_code hcontrol
    · refine .plain (fun h => hquote h) (fun h => hmark h) ?_
      unfold IsVisible
      omega
  all_goals exact .short (by simp [shortEscapes])

/-- A short escape is not taken for a code point, and stands for one character. -/
theorem of_mem_shortEscapes : ∀ p ∈ shortEscapes,
    p.1 ≠ 'u' ∧ IsVisible p.1 ∧ shortEscapes.lookup p.1 = some p.2 := by
  decide

/-! ## Digits -/

theorem of_digitChar : ∀ d < 16, Text.hexDigitValue? (Nat.digitChar d) = some d ∧
    IsVisible (Nat.digitChar d) ∧ Nat.digitChar d ≠ '"' ∧ Nat.digitChar d ≠ '\\' := by
  decide

theorem mapM_hexDigitValue? {ds : List Nat} (h : ∀ d ∈ ds, d < 16) :
    (ds.map Nat.digitChar).mapM Text.hexDigitValue? = some ds := by
  induction ds with
  | nil => rfl
  | cons d ds ih =>
    obtain ⟨hd, hds⟩ := List.forall_mem_cons.mp h
    rw [List.map_cons, List.mapM_cons, (of_digitChar d hd).1, ih hds]
    rfl

theorem codePoint?_digits {c : Char} {ds : List Nat} (hdigits : ∀ d ∈ ds, d < 16)
    (hnumber : Text.numberOf 0 ds = c.toNat) : codePoint? (ds.map Nat.digitChar) = some c := by
  have hvalid : c.toNat.isValidChar := c.valid
  simp [codePoint?, mapM_hexDigitValue? hdigits, hnumber, hvalid]

/-! ## One character -/

/-- Characters that are neither quotes nor backslashes hold no quote that ends a literal. -/
theorem bareQuotesFrom_append {cs : List Char} (h : ∀ c ∈ cs, c ≠ '"' ∧ c ≠ '\\') (n : Nat)
    (rest : List Char) :
    bareQuotesFrom n false (cs ++ rest) = bareQuotesFrom (n + cs.length) false rest := by
  induction cs generalizing n with
  | nil => rfl
  | cons c cs ih =>
    obtain ⟨hc, hcs⟩ := List.forall_mem_cons.mp h
    have hmark : (c == '\\') = false := by simpa using hc.2
    rw [List.cons_append, bareQuotesFrom, if_neg hc.1, hmark, ih hcs, List.length_cons,
      Nat.add_assoc, Nat.add_comm 1]

namespace Spelling

variable {c : Char} {cs : List Char}

/-- **One character** is read, however it is spelled. -/
theorem readQuoted (h : Spelling c cs) (rest : List Char) :
    readQuoted (cs ++ rest) = (readQuoted rest).map fun r => (c :: r.1, r.2) := by
  cases h with
  | plain hquote hmark _ =>
    rw [List.singleton_append, Source.readQuoted]
    · cases Source.readQuoted rest <;> rfl
    · exact hquote
    · rintro _ _ _ _ _ rfl
      exact absurd rfl hmark
    · rintro _ _ rfl
      exact absurd rfl hmark
    · rintro rfl
      exact absurd rfl hmark
  | short h =>
    obtain ⟨hcode, -, hlookup⟩ := of_mem_shortEscapes _ h
    rw [List.cons_append, List.singleton_append, Source.readQuoted, hlookup]
    · cases Source.readQuoted rest <;> rfl
    · rintro _ _ _ _ _ rfl
      exact absurd rfl hcode
  | @code c ds hdigits hlength hnumber =>
    have hpoint := codePoint?_digits hdigits hnumber
    obtain ⟨i, j, k, l, rfl⟩ := List.length_eq_four.mp hlength
    simp only [List.map_cons, List.map_nil, List.cons_append, List.nil_append] at hpoint ⊢
    rw [Source.readQuoted, hpoint]
    cases Source.readQuoted rest <;> rfl

/-- No quote of one character ends the literal. -/
theorem bareQuotesFrom (h : Spelling c cs) (n : Nat) (rest : List Char) :
    bareQuotesFrom n false (cs ++ rest) = bareQuotesFrom (n + cs.length) false rest := by
  cases h with
  | plain hquote hmark _ => exact bareQuotesFrom_append (by simp [hquote, hmark]) n rest
  | short _ => rfl
  | @code c ds hdigits _ _ =>
    have hplain : ∀ d ∈ ds.map Nat.digitChar, d ≠ '"' ∧ d ≠ '\\' := by
      intro x hx
      obtain ⟨d, hd, rfl⟩ := List.mem_map.mp hx
      exact (of_digitChar d (hdigits d hd)).2.2
    -- the backslash and the letter behind it
    show Source.bareQuotesFrom (n + 1 + 1) false (ds.map Nat.digitChar ++ rest) = _
    rw [bareQuotesFrom_append hplain]
    congr 1
    simp only [List.length_cons]
    omega

theorem isVisible (h : Spelling c cs) : ∀ d ∈ cs, IsVisible d := by
  cases h with
  | plain _ _ hvisible => simpa using hvisible
  | short h =>
    have hmark : IsVisible '\\' := by decide
    simpa [hmark] using (of_mem_shortEscapes _ h).2.1
  | @code c ds hdigits _ _ =>
    have hmark : IsVisible '\\' ∧ IsVisible 'u' := by decide
    simp only [List.forall_mem_cons, List.forall_mem_map]
    exact ⟨hmark.1, hmark.2, fun d hd => (of_digitChar d (hdigits d hd)).2.1⟩

end Spelling

/-! ## Texts -/

/-- **A text** is read up to the quote behind it, whatever follows. -/
theorem readQuoted_flatMap (cs rest : List Char) :
    readQuoted (cs.flatMap escapedChar ++ '"' :: rest) = some (cs, rest) := by
  induction cs with
  | nil => simp [readQuoted]
  | cons c cs ih =>
    rw [List.flatMap_cons, List.append_assoc, (spelling_escapedChar c).readQuoted, ih]
    rfl

/-- The first bare quote behind an escaped text is the one that ends it. -/
theorem bareQuotesFrom_flatMap (n : Nat) (cs rest : List Char) :
    bareQuotesFrom n false (cs.flatMap escapedChar ++ rest) =
      bareQuotesFrom (n + (cs.flatMap escapedChar).length) false rest := by
  induction cs generalizing n with
  | nil => rfl
  | cons c cs ih =>
    rw [List.flatMap_cons, List.append_assoc, (spelling_escapedChar c).bareQuotesFrom, ih,
      List.length_append, Nat.add_assoc]

/-- A literal that stands for a text. Two quotes that are not escaped delimit it, all its characters
are visible, and it is read as the text wherever it stands. -/
structure IsLiteralOf (text literal : String) : Prop where
  delimited : bareQuotes literal.toList = [0, literal.length - 1]
  visible : ∀ c ∈ literal.toList, IsVisible c
  read : ∀ rest, readLiteral (literal.toList ++ rest) = some (text.toList, rest)

theorem isLiteralOf_stringLiteral (s : String) : IsLiteralOf s (stringLiteral s) where
  delimited := by
    rw [← String.length_toList, stringLiteral_toList]
    show 0 :: bareQuotesFrom 1 false (s.toList.flatMap escapedChar ++ ['"']) = _
    rw [bareQuotesFrom_flatMap]
    simp [bareQuotesFrom, Nat.add_comm 1]
  visible := by
    have hquote : IsVisible '"' := by decide
    simp only [stringLiteral_toList, List.cons_append, List.forall_mem_cons,
      List.forall_mem_append, List.mem_flatMap]
    refine ⟨hquote, ?_, hquote, by simp⟩
    rintro d ⟨c, -, hd⟩
    exact (spelling_escapedChar c).isVisible d hd
  read rest := by
    rw [stringLiteral_toList, List.cons_append, List.cons_append, List.append_assoc]
    exact readQuoted_flatMap s.toList rest

/-- One literal stands for one text. -/
theorem IsLiteralOf.eq {s t literal : String} (hs : IsLiteralOf s literal)
    (ht : IsLiteralOf t literal) : s = t := by
  have h := (hs.read []).symm.trans (ht.read [])
  simpa [String.toList_inj] using h

/-- **String literals.** Every text is written as one literal that stands for it, so different texts
are written differently. -/
theorem stringLiteral_reads_back :
    (∀ s, IsLiteralOf s (stringLiteral s)) ∧ Function.Injective stringLiteral := by
  refine ⟨isLiteralOf_stringLiteral, fun s t h => ?_⟩
  exact (isLiteralOf_stringLiteral s).eq (h ▸ isLiteralOf_stringLiteral t)

/-- What looks like an escape is written differently from what the escape stands for. -/
example : stringLiteral "\\u0001\x01" = "\"\\\\u0001\\u0001\"" := by decide

end Unscript.Source
