import Unscript.Proofs.Source.Comments

/-!
# Reading source text by its indentation

A reader of a text looks at its lines, without empty ones and comments. A line that ends with a colon
has a suite, the deeper lines behind it, all of them as deep as the first. An `elif` or `else`
belongs to the conditional before it, and a suite of a lone `pass` is empty.

* `Source.Row`: a line that is looked at. `Source.rows` are those of a text.
* `Source.Nest`: a row with the deeper rows behind it. `Source.nested` puts rows together.
* `Source.Outline`: what rows say.
* `Source.items?`, `Source.cases?`: how rows are read.
* `Source.readFunction?` reads a function.

Results:
* `Source.nested_append`, `Source.nested_cons`: how rows are put together.
* `Source.Reads`, `Source.Awaits`: rows that say something wherever they stand.
-/

namespace Unscript.Source

/-! ## Rows -/

/-- A line with something on it: how far it is indented, and what stands there. -/
structure Row where
  indent : Nat
  text : List Char
  deriving DecidableEq, Repr

/-- The row of a line. Empty lines and comments have none. -/
def row? (line : List Char) : Option Row :=
  match line.dropWhile Text.isBlank with
  | [] => none
  | '#' :: _ => none
  | text => some ⟨(line.takeWhile Text.isBlank).length, text⟩

/-- The rows of a text. -/
def rows (text : String) : List Row :=
  (physicalLines text).filterMap row?

/-- A row with the deeper rows behind it. -/
inductive Nest where
  | mk (indent : Nat) (text : List Char) (inside : List Nest)
  deriving Repr

namespace Nest

/-- How far the row is indented. -/
def indent : Nest → Nat
  | .mk indent _ _ => indent

/-- What stands in the row. -/
def text : Nest → List Char
  | .mk _ text _ => text

/-- The deeper rows behind it. -/
def inside : Nest → List Nest
  | .mk _ _ inside => inside

end Nest

/-- Puts a row before others, of which the first ones may be deeper. -/
def nest (r : Row) (ts : List Nest) : List Nest :=
  .mk r.indent r.text (ts.takeWhile (r.indent < ·.indent)) :: ts.dropWhile (r.indent < ·.indent)

/-- Rows put together. -/
def nested (rs : List Row) : List Nest :=
  rs.foldr nest []

/-- Whether rows are all as deep as the first. -/
def aligned : List Nest → Bool
  | [] => false
  | t :: ts => ts.all fun u => u.indent == t.indent

/-! ## Outlines -/

/-- What rows say: texts of statements and of what constructs are about, and constructs. -/
inductive Outline where
  | declaration (name : String)
  | statement (text : String)
  | branch (condition : String) (whenTrue whenFalse : List Outline)
  | loop (condition : String) (body : List Outline)
  | iteration (head : String) (body : List Outline)
  | choice (subject : String) (cases : List (String × List Outline))
      (fallback : Option (List Outline))
  | ret (value : Option String)
  | leaveLoop
  | nextTurn
  deriving Repr

/-- What a row says alone. -/
inductive Clause where
  | item (o : Outline)
  | branch (condition : String)
  | chained (condition : String)
  | otherwise
  | loop (condition : String)
  | iteration (head : String)
  | choice (subject : String)
  deriving Repr

/-- What stands behind a word and a blank. -/
def afterWord (word : String) (cs : List Char) : List Char :=
  cs.drop (word.length + 1)

/-- What stands between a word and the colon at the end. -/
def between? (word : String) (cs : List Char) : Option String :=
  if (word.toList ++ [' ']).isPrefixOf cs && cs.getLast? == some ':' then
    some (String.ofList (afterWord word cs).dropLast)
  else none

/-- What a row says by its first word. -/
def clause? (cs : List Char) : Option Clause :=
  match String.ofList (firstWord cs) with
  | "if" => (between? "if" cs).map .branch
  | "elif" => (between? "elif" cs).map .chained
  | "else" => if cs = "else:".toList then some .otherwise else none
  | "while" => (between? "while" cs).map .loop
  | "for" => (between? "for" cs).map .iteration
  | "match" => (between? "match" cs).map .choice
  | "return" =>
    some (.item (.ret (if cs = "return".toList then none
      else some (String.ofList (afterWord "return" cs)))))
  | "break" => if cs = "break".toList then some (.item .leaveLoop) else none
  | "continue" => if cs = "continue".toList then some (.item .nextTurn) else none
  | "pass" => none
  | "var" =>
    let rest := afterWord "var" cs
    some (.item (if firstWord rest = rest then .declaration (String.ofList rest)
      else .statement (String.ofList rest)))
  | _ => some (.item (.statement (String.ofList cs)))

/-- Rows that were read: what an `elif` or `else` at their front says, which waits for its
conditional, and the others. -/
abbrev Items := Option (List Outline) × List Outline

/-- The cases of a match, and the one for everything else. -/
abbrev Cases := List (String × List Outline) × Option (List Outline)

/-- Whether rows are a lone `pass`. -/
def isPass : List Nest → Bool
  | [.mk _ text []] => text == "pass".toList
  | _ => false

/-- A suite from its rows and from what they say. -/
def suiteOf (ts : List Nest) (items : Option Items) : Option (List Outline) :=
  if isPass ts then some []
  else if aligned ts then
    match items with
    | some (none, items) => some items
    | _ => none
  else none

/-- What a row says before others that were read, with its suite or its cases. -/
def Clause.before (c : Clause) (lone : Bool) (suite : Option (List Outline)) (cases : Option Cases)
    (read : Items) : Option Items :=
  match c, read with
  | .branch condition, (waiting, items) => do
    return (none, .branch condition (← suite) (waiting.getD []) :: items)
  | .chained condition, (waiting, items) => do
    return (some [.branch condition (← suite) (waiting.getD [])], items)
  | .otherwise, (none, items) => do return (some (← suite), items)
  | .loop condition, (none, items) => do return (none, .loop condition (← suite) :: items)
  | .iteration head, (none, items) => do return (none, .iteration head (← suite) :: items)
  | .choice subject, (none, items) => do
    let (cases, fallback) ← cases
    return (none, .choice subject cases fallback :: items)
  | .item o, (none, items) => if lone then some (none, o :: items) else none
  | _, _ => none

/-- What a case says before others that were read. -/
def caseBefore (wildcard : String) (cs : List Char) (body : List Outline) (read : Cases) :
    Option Cases :=
  if cs.getLast? ≠ some ':' then none
  else if String.ofList cs.dropLast = wildcard then
    if read.1.isEmpty && read.2.isNone then some ([], some body) else none
  else some ((String.ofList cs.dropLast, body) :: read.1, read.2)

mutual

/-- Reads what is inside a row as a suite. -/
def Nest.suite? (wildcard : String) : Nest → Option (List Outline)
  | .mk _ _ inside => suiteOf inside (items? wildcard inside)

/-- Reads what is inside a row as the cases of a match. -/
def Nest.cases? (wildcard : String) : Nest → Option Cases
  | .mk _ _ inside => if aligned inside then Source.cases? wildcard inside else none

/-- Reads rows, the last one first. -/
def items? (wildcard : String) : List Nest → Option Items
  | [] => some (none, [])
  | t :: ts => do
    let read ← items? wildcard ts
    let c ← clause? t.text
    c.before t.inside.isEmpty (t.suite? wildcard) (t.cases? wildcard) read

/-- Reads rows as the cases of a match, the last one first. -/
def cases? (wildcard : String) : List Nest → Option Cases
  | [] => some ([], none)
  | t :: ts => do
    let read ← cases? wildcard ts
    caseBefore wildcard t.text (← t.suite? wildcard) read

end

/-- What the first line of a function says: whether the function is static, and its name with its
arguments. -/
def signature? (cs : List Char) : Option (Bool × String) :=
  let isStatic := "static ".toList.isPrefixOf cs
  (between? "func" (if isStatic then cs.drop 7 else cs)).map (isStatic, ·)

/-- Reads a text as one function. -/
def readFunction? (wildcard : String) (text : String) :
    Option ((Bool × String) × List Outline) :=
  match nested (rows text) with
  | [t] => do
    if t.indent ≠ 0 then none
    return (← signature? t.text, ← t.suite? wildcard)
  | _ => none

/-! ## Rows put together -/

section Nested

variable {r : Row} {rs rs' : List Row} {ts us : List Nest} {depth : Nat}

theorem nested_cons (r : Row) (rs : List Row) : nested (r :: rs) = nest r (nested rs) :=
  rfl

/-- Rows that are not deeper stay behind. -/
theorem nest_append (hus : ∀ u ∈ us, u.indent ≤ r.indent) : nest r (ts ++ us) = nest r ts ++ us := by
  have hnone : us.takeWhile (r.indent < ·.indent) = [] ∧ us.dropWhile (r.indent < ·.indent) = us := by
    cases us with
    | nil => exact ⟨rfl, rfl⟩
    | cons u us =>
      have hu : ¬ (decide (r.indent < u.indent) = true) := by
        simpa using hus u List.mem_cons_self
      exact ⟨List.takeWhile_cons_of_neg hu, List.dropWhile_cons_of_neg hu⟩
  unfold nest
  rw [List.takeWhile_append, List.dropWhile_append, hnone.1, hnone.2, List.append_nil]
  split
  · rename_i hall
    rw [List.takeWhile_eq_self_iff.mpr, List.dropWhile_eq_nil_iff.mpr]
    · rfl
    all_goals
      rw [← List.takeWhile_eq_self_iff]
      exact (List.takeWhile_prefix _).eq_of_length hall
  · rename_i hsome
    have hrest : (ts.dropWhile (r.indent < ·.indent)).isEmpty = false := by
      rw [List.isEmpty_eq_false_iff]
      intro hnil
      rw [List.dropWhile_eq_nil_iff, ← List.takeWhile_eq_self_iff] at hnil
      exact hsome (by rw [hnil])
    rw [hrest]
    rfl

/-- **Rows behind others** that are at least as deep are put together by themselves. -/
theorem nested_append (hrs : ∀ r ∈ rs, depth ≤ r.indent)
    (hdepth : ∀ t ∈ nested rs', t.indent ≤ depth) : nested (rs ++ rs') = nested rs ++ nested rs' := by
  induction rs with
  | nil => rfl
  | cons r rs ih =>
    obtain ⟨hr, hrs⟩ := List.forall_mem_cons.mp hrs
    rw [List.cons_append, nested_cons, nested_cons, ih hrs]
    exact nest_append fun t ht => Nat.le_trans (hdepth t ht) hr

/-- Deeper rows stand inside the row before them. -/
theorem nested_inside (h : ∀ t ∈ nested rs, r.indent < t.indent) :
    nested (r :: rs) = [.mk r.indent r.text (nested rs)] := by
  have hall : ∀ t ∈ nested rs, decide (r.indent < t.indent) = true := by simpa using h
  rw [nested_cons, nest, List.takeWhile_eq_self_iff.mpr hall, List.dropWhile_eq_nil_iff.mpr hall]

theorem nested_eq_nil : nested rs = [] ↔ rs = [] := by
  cases rs with
  | nil => simp [nested]
  | cons r rs => simp [nested_cons, nest]

/-- Rows of one depth are aligned. -/
theorem aligned_of_depth (hne : ts ≠ []) (h : ∀ t ∈ ts, t.indent = depth) : aligned ts = true := by
  cases ts with
  | nil => exact absurd rfl hne
  | cons t ts =>
    obtain ⟨ht, hts⟩ := List.forall_mem_cons.mp h
    simp only [aligned, List.all_eq_true, beq_iff_eq]
    exact fun u hu => (hts u hu).trans ht.symm

end Nested

/-! ## Rows that say something wherever they stand -/

section Reads

variable (wildcard : String)

/-- Rows that say something, whatever is read behind them. -/
def Reads (ts : List Nest) (os : List Outline) : Prop :=
  ∀ us rest, items? wildcard us = some (none, rest) →
    items? wildcard (ts ++ us) = some (none, os ++ rest)

/-- Rows that say what a conditional does otherwise. -/
def Awaits (ts : List Nest) (os : List Outline) : Prop :=
  ∀ us rest, items? wildcard us = some (none, rest) →
    items? wildcard (ts ++ us) = some (some os, rest)

/-- Rows behind a conditional that say what it does otherwise, if they say anything. -/
def Follows (ts : List Nest) (os : List Outline) : Prop :=
  ∀ us rest, items? wildcard us = some (none, rest) →
    ∃ waiting, items? wildcard (ts ++ us) = some (waiting, rest) ∧ waiting.getD [] = os

/-- Rows that are cases of a match, whatever cases are read behind them. -/
def ReadsCases (ts : List Nest) (cs : List (String × List Outline)) : Prop :=
  ∀ us rest fallback, cases? wildcard us = some (rest, fallback) →
    cases? wildcard (ts ++ us) = some (cs ++ rest, fallback)

variable {wildcard} {t : Nest} {ts us : List Nest} {os os' body other : List Outline}
  {cs cs' : List (String × List Outline)} {fallback : Option (List Outline)} {c : Clause}
  {read read' : Items} {text : List Char} {condition : String} {indent : Nat}

theorem items?_cons (h : items? wildcard ts = some read) (hc : clause? t.text = some c) :
    items? wildcard (t :: ts) =
      c.before t.inside.isEmpty (t.suite? wildcard) (t.cases? wildcard) read := by
  rw [items?, h, hc]
  rfl

theorem cases?_cons {read : Cases} (h : cases? wildcard ts = some read)
    (hbody : t.suite? wildcard = some body) :
    cases? wildcard (t :: ts) = caseBefore wildcard t.text body read := by
  rw [cases?, h, hbody]
  rfl

theorem Reads.nil : Reads wildcard [] [] :=
  fun _ _ h => h

theorem Reads.append (h : Reads wildcard ts os) (h' : Reads wildcard us os') :
    Reads wildcard (ts ++ us) (os ++ os') := by
  intro vs rest hrest
  rw [List.append_assoc, List.append_assoc]
  exact h _ _ (h' _ _ hrest)

theorem Reads.eq (h : Reads wildcard ts os) : items? wildcard ts = some (none, os) := by
  have := h [] [] (by rw [items?])
  rwa [List.append_nil, List.append_nil] at this

theorem Follows.nil : Follows wildcard [] [] :=
  fun _ _ h => ⟨none, h, rfl⟩

theorem Awaits.follows (h : Awaits wildcard ts os) : Follows wildcard ts os :=
  fun us rest hrest => ⟨some os, h us rest hrest, rfl⟩

/-- A row that is a statement, a declaration, or a step out of a construct. -/
theorem Reads.item {o : Outline} (h : clause? t.text = some (.item o)) (hlone : t.inside = []) :
    Reads wildcard [t] [o] := by
  intro us rest hrest
  rw [List.singleton_append, items?_cons hrest h, hlone]
  rfl

theorem Reads.loop (h : clause? t.text = some (.loop condition))
    (hbody : t.suite? wildcard = some body) : Reads wildcard [t] [.loop condition body] := by
  intro us rest hrest
  rw [List.singleton_append, items?_cons hrest h, hbody]
  rfl

theorem Reads.iteration (h : clause? t.text = some (.iteration condition))
    (hbody : t.suite? wildcard = some body) : Reads wildcard [t] [.iteration condition body] := by
  intro us rest hrest
  rw [List.singleton_append, items?_cons hrest h, hbody]
  rfl

theorem Reads.choice (h : clause? t.text = some (.choice condition))
    (hcases : t.cases? wildcard = some (cs, fallback)) :
    Reads wildcard [t] [.choice condition cs fallback] := by
  intro us rest hrest
  rw [List.singleton_append, items?_cons hrest h, hcases]
  rfl

/-- A conditional with what it does otherwise. -/
theorem Reads.branch (h : clause? t.text = some (.branch condition))
    (hbody : t.suite? wildcard = some body) (hother : Follows wildcard ts other) :
    Reads wildcard (t :: ts) [.branch condition body other] := by
  intro us rest hrest
  obtain ⟨waiting, hwaiting, rfl⟩ := hother us rest hrest
  rw [List.cons_append, items?_cons hwaiting h, hbody]
  rfl

theorem Awaits.chained (h : clause? t.text = some (.chained condition))
    (hbody : t.suite? wildcard = some body) (hother : Follows wildcard ts other) :
    Awaits wildcard (t :: ts) [.branch condition body other] := by
  intro us rest hrest
  obtain ⟨waiting, hwaiting, rfl⟩ := hother us rest hrest
  rw [List.cons_append, items?_cons hwaiting h, hbody]
  rfl

theorem Awaits.otherwise (h : clause? t.text = some .otherwise)
    (hbody : t.suite? wildcard = some body) : Awaits wildcard [t] body := by
  intro us rest hrest
  rw [List.singleton_append, items?_cons hrest h, hbody]
  rfl

theorem ReadsCases.nil : ReadsCases wildcard [] [] :=
  fun _ _ _ h => h

theorem ReadsCases.eq_nil (h : ReadsCases wildcard [] cs) : cs = [] := by
  have hnone := h [] [] none (by rw [cases?])
  rw [List.nil_append, cases?, List.append_nil] at hnone
  cases hnone
  rfl

theorem ReadsCases.cons {pattern : String} (htext : t.text = pattern.toList ++ [':'])
    (hpattern : pattern ≠ wildcard) (hbody : t.suite? wildcard = some body)
    (h : ReadsCases wildcard ts cs) : ReadsCases wildcard (t :: ts) ((pattern, body) :: cs) := by
  intro us rest fallback hrest
  rw [List.cons_append, cases?_cons (h us rest fallback hrest) hbody, caseBefore, htext]
  simp [hpattern]

/-- The case of a match for everything else is the last one. -/
theorem cases?_wildcard (htext : t.text = wildcard.toList ++ [':'])
    (hbody : t.suite? wildcard = some body) : cases? wildcard [t] = some ([], some body) := by
  rw [cases?_cons (by rw [cases?]) hbody, caseBefore, htext]
  simp

/-- Cases that stand in rows of one depth. -/
theorem cases?_of_reads {us : List Nest} (h : ReadsCases wildcard ts cs)
    (hfallback : cases? wildcard us = some ([], fallback)) (haligned : aligned (ts ++ us) = true) :
    (Nest.mk indent text (ts ++ us)).cases? wildcard = some (cs, fallback) := by
  rw [Nest.cases?, if_pos haligned, h us [] fallback hfallback, List.append_nil]

theorem not_reads_pass {indent : Nat} : ¬ Reads wildcard [.mk indent "pass".toList []] os := by
  intro h
  have hnone : items? wildcard [.mk indent "pass".toList []] = none := by
    rw [items?, items?]
    rfl
  cases hnone.symm.trans h.eq

/-- **A suite of rows of one depth** says what the rows do. -/
theorem suite?_of_reads (h : Reads wildcard ts os) (haligned : aligned ts = true) :
    (Nest.mk indent text ts).suite? wildcard = some os := by
  have hpass : isPass ts = false := by
    rw [← Bool.not_eq_true]
    intro hpass
    unfold isPass at hpass
    split at hpass
    · rw [beq_iff_eq] at hpass
      subst hpass
      exact not_reads_pass h
    · cases hpass
  rw [Nest.suite?, h.eq]
  unfold suiteOf
  rw [hpass, haligned]
  rfl

theorem suite?_pass {inner : Nat} :
    (Nest.mk indent text [.mk inner "pass".toList []]).suite? wildcard = some [] := by
  rw [Nest.suite?]
  unfold suiteOf
  rfl

end Reads

end Unscript.Source
