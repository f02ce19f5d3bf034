import Unscript.Proofs.Lifting.Origin
import Unscript.Proofs.Source.Openings
import Unscript.Proofs.Source.Outlines
import Unscript.Proofs.Source.Writing

/-!
# What lines say

Every line of a body but a comment stands on one line of the text and begins with neither a blank nor
the mark of a comment. A reader knows by its first word what it says.

* `Source.Scope.Tidy`: an expression whose names are plain and printed on one line.
* `Source.Clear`: a text that is one line and no comment.
* `Source.Writer.clause?`: what a line should say.

Results:
* `Source.Writer.clear_of_contentText`: lines but comments are clear.
* `Source.Writer.clause?_of_contentText`: what a line says is what it should say.
-/

namespace Unscript.Source

/-! ## Words -/

theorem firstWord_append {cs ds : List Char} {c : Char}
    (hcs : ∀ x ∈ cs, continuesIdentifier x = true) (hc : continuesIdentifier c = false) :
    firstWord (cs ++ c :: ds) = cs := by
  unfold firstWord
  rw [List.takeWhile_append_of_pos hcs, List.takeWhile_cons_of_neg (by simp [hc]), List.append_nil]

/-- A word with a blank behind it is the first one. -/
theorem firstWord_of_word {word : String} (h : isWord word.toList = true) (rest : String) :
    String.ofList (firstWord (word ++ (" " ++ rest)).toList) = word := by
  have hrest : (word ++ (" " ++ rest)).toList = word.toList ++ ' ' :: rest.toList := by simp
  rw [hrest, firstWord_append (isWord_iff.mp h).2 (by decide), String.ofList_toList]

theorem afterWord_append (word rest : String) :
    afterWord word (word ++ (" " ++ rest)).toList = rest.toList := by
  have htext : (word ++ (" " ++ rest)).toList = (word.toList ++ [' ']) ++ rest.toList := by simp
  have hlength : (word.toList ++ [' ']).length = word.length + 1 := by
    rw [List.length_append, String.length_toList]
    rfl
  unfold afterWord
  rw [htext, ← hlength, List.drop_left]

/-- What stands between a word and the colon at the end is read. -/
theorem between?_eq (word middle : String) :
    between? word (word ++ (" " ++ (middle ++ ":"))).toList = some middle := by
  have hstart : (word.toList ++ [' ']).isPrefixOf
      (word ++ (" " ++ (middle ++ ":"))).toList = true := by
    simp [List.isPrefixOf_iff_prefix]
  have hlast : (word ++ (" " ++ (middle ++ ":"))).toList.getLast? = some ':' := by
    rw [← String.append_assoc, ← String.append_assoc, String.toList_append]
    exact List.getLast?_concat
  unfold between?
  rw [hstart, hlast, afterWord_append, String.toList_append]
  simp

/-- A line that begins like an expression is a statement. -/
theorem clause?_of_begins {text : String} (h : Begins text) :
    clause? text.toList = some (.item (.statement text)) := by
  have hword := h.word
  unfold clause?
  split
  all_goals first
    | rw [String.ofList_toList]
    | (rename_i heq; rw [heq] at hword; exact absurd (by decide) hword)

theorem clause?_var (rest : String) : clause? ("var" ++ (" " ++ rest)).toList = some (.item
    (if firstWord rest.toList = rest.toList then .declaration rest else .statement rest)) := by
  have hbehind : afterWord "var" ("var" ++ (" " ++ rest)).toList = rest.toList :=
    afterWord_append "var" rest
  simp only [clause?, firstWord_of_word (by decide : isWord "var".toList = true), hbehind,
    String.ofList_toList]

theorem clause?_return (rest : String) : clause? ("return" ++ (" " ++ rest)).toList =
    some (.item (.ret (some rest))) := by
  have hbehind : afterWord "return" ("return" ++ (" " ++ rest)).toList = rest.toList :=
    afterWord_append "return" rest
  have hne : ("return" ++ (" " ++ rest)).toList ≠ "return".toList := by
    simp
  simp only [clause?, firstWord_of_word (by decide : isWord "return".toList = true), hbehind,
    if_neg hne, String.ofList_toList]

/-! ## Texts of expressions -/

namespace Scope

/-- An expression whose names are plain and printed on one line. -/
structure Tidy (s : Scope) (e : Expr) : Prop where
  named : s.Named e
  unbroken : ∀ name ∈ s.printed e, '\n' ∉ name.toList

namespace Tidy

variable {s : Scope} {e : Expr}

theorem expr_eq (h : s.Tidy e) : s.expr e = .ok (s.exprText e) := by
  obtain ⟨text, htext⟩ := exists_expr_of_named h.named
  unfold exprText
  rw [htext]
  rfl

theorem begins (h : s.Tidy e) : Begins (s.exprText e) :=
  begins_expr h.named h.expr_eq

theorem text_unbroken (h : s.Tidy e) : '\n' ∉ (s.exprText e).toList := by
  intro hbreak
  obtain ⟨name, hname, hbroken⟩ := (prints_expr h.expr_eq).breaks hbreak
  exact h.unbroken name hname hbroken

end Tidy

end Scope

theorem isPlain_unbroken {name : String} (h : isPlain name = true) : '\n' ∉ name.toList :=
  (IsLeaf.of_isPlain h).unbroken

/-! ## Lines -/

/-- A text that is one line and no comment. -/
structure Clear (text : String) : Prop where
  head : ∃ c cs, text.toList = c :: cs ∧ Text.isBlank c = false ∧ c ≠ '#'
  unbroken : '\n' ∉ text.toList

namespace Clear

variable {text more : String}

theorem append (h : Clear text) (hmore : '\n' ∉ more.toList) : Clear (text ++ more) := by
  obtain ⟨c, cs, htext, hblank, hne⟩ := h.head
  refine ⟨⟨c, cs ++ more.toList, by rw [String.toList_append, htext]; rfl, hblank, hne⟩, ?_⟩
  rw [String.toList_append, List.mem_append, not_or]
  exact ⟨h.unbroken, hmore⟩

/-- A word that begins a line. -/
theorem word (h : isWord text.toList = true) : Clear text := by
  obtain ⟨hhead, hall⟩ := isWord_iff.mp h
  cases htext : text.toList with
  | nil => simp [htext] at hhead
  | cons c cs =>
    rw [htext, List.head?_cons, Option.any_some] at hhead
    refine ⟨⟨c, cs, htext, isBlank_of_opensLeaf (by simp [opensLeaf, hhead])⟩, fun hbreak => ?_⟩
    exact absurd (hall _ hbreak) (by decide)

end Clear

theorem Begins.clear {text : String} (h : Begins text) (hunbroken : '\n' ∉ text.toList) :
    Clear text :=
  ⟨h.head, hunbroken⟩

/-- The expressions of what a line says. -/
def Content.exprs : Content → List Expr
  | .statement stmt => stmt.exprs
  | .test _ e | .iteration _ e | .subject e | .pattern e | .ret (some e) => [e]
  | _ => []

/-- Whether a line is read: comments are not. -/
def Content.isRead : Content → Bool
  | .test word _ => ["if", "elif", "while"].contains word
  | .label _ | .remark _ => false
  | _ => true

namespace Writer

variable {w : Writer} {c : Content} {text : String}

/-- What a line should say. -/
def clause? (w : Writer) : Content → Option Clause
  | .declaration slot => some (.item (.declaration (w.scope.names.name slot)))
  | .statement stmt => some (.item (.statement (w.statementText stmt)))
  | .test "if" condition => some (.branch (w.scope.exprText condition))
  | .test "elif" condition => some (.chained (w.scope.exprText condition))
  | .test "while" condition => some (.loop (w.scope.exprText condition))
  | .otherwise => some .otherwise
  | .iteration element iterable => some (.iteration (w.iterationHead element iterable))
  | .subject e => some (.choice (w.scope.exprText e))
  | .ret value => some (.item (.ret (w.returned value)))
  | .leaveLoop => some (.item .leaveLoop)
  | .nextTurn => some (.item .nextTurn)
  | _ => none

/-! ## Statements -/

theorem statement_eq {stmt : Stmt} (h : ∀ e ∈ stmt.exprs, w.scope.Tidy e) :
    w.statement stmt =
      .ok ((if stmt.declares then "var " else "") ++ w.statementText stmt) := by
  unfold statementText
  cases stmt with
  | assign target value offset declares =>
    have htarget := (h target (by simp [Stmt.exprs])).expr_eq
    have hvalue := (h value (by simp [Stmt.exprs])).expr_eq
    simp only [statement, Stmt.undeclared, Stmt.declares, htarget, hvalue, bind, Except.bind, pure,
      Except.pure, Except.toOption, Option.getD_some, String.append_assoc]
    cases declares <;> simp
  | expr e offset residue =>
    have he := (h e (by simp [Stmt.exprs])).expr_eq
    simp [statement, Stmt.undeclared, Stmt.declares, he, bind, Except.bind, pure, Except.pure,
      Except.toOption]
  | assert test offset =>
    have htest := (h test (by simp [Stmt.exprs])).expr_eq
    simp [statement, Stmt.undeclared, Stmt.declares, htest, bind, Except.bind, pure, Except.pure,
      Except.toOption]
  | breakpoint offset => rfl

theorem statementText_assign {target value : Expr} (offset : Nat) (declares : Bool)
    (htarget : w.scope.Tidy target) (hvalue : w.scope.Tidy value) :
    w.statementText (.assign target value offset declares) =
      w.scope.exprText target ++ (" = " ++ w.scope.exprText value) := by
  simp [statementText, statement, Stmt.undeclared, htarget.expr_eq, hvalue.expr_eq, bind,
    Except.bind, pure, Except.pure, Except.toOption, String.append_assoc]

/-- A statement begins as an expression does, and is one line. -/
theorem begins_statementText {stmt : Stmt} (h : ∀ e ∈ stmt.exprs, w.scope.Tidy e) :
    Begins (w.statementText stmt) ∧ '\n' ∉ (w.statementText stmt).toList := by
  cases stmt with
  | assign target value offset declares =>
    have htarget := h target (by simp [Stmt.exprs])
    have hvalue := h value (by simp [Stmt.exprs])
    rw [statementText_assign offset declares htarget hvalue]
    refine ⟨htarget.begins.append (by simp; decide), ?_⟩
    simp [htarget.text_unbroken, hvalue.text_unbroken]
  | expr e offset residue =>
    have he := h e (by simp [Stmt.exprs])
    have htext : w.statementText (.expr e offset residue) = w.scope.exprText e ++
        if residue then "  " ++ marker ++ " value left on the stack" else "" := by
      simp only [statementText, statement, Stmt.undeclared, he.expr_eq, bind, Except.bind, pure,
        Except.pure, Except.toOption, Option.getD_some]
      cases residue <;> simp [String.append_assoc]
    rw [htext]
    refine ⟨he.begins.append (by cases residue <;> simp; decide), ?_⟩
    rw [String.toList_append, List.mem_append, not_or]
    exact ⟨he.text_unbroken, by cases residue <;> decide⟩
  | assert test offset =>
    have htest := h test (by simp [Stmt.exprs])
    have htext : w.statementText (.assert test offset) =
        "assert" ++ ("(" ++ (w.scope.exprText test ++ ")")) := by
      simp [statementText, statement, Stmt.undeclared, htest.expr_eq, bind, Except.bind, pure,
        Except.pure, Except.toOption, ← String.toList_inj]
    have hword : Begins "assert" := ⟨by decide, 'a', _, rfl, by decide, by decide⟩
    rw [htext]
    exact ⟨hword.append (by simp; decide), by simp [htest.text_unbroken]⟩
  | breakpoint offset =>
    show Begins "breakpoint" ∧ '\n' ∉ "breakpoint".toList
    exact ⟨⟨by decide, 'b', _, rfl, by decide, by decide⟩, by decide⟩

/-- A declaration that is also an assignment is read as the assignment. -/
theorem clause?_statement {stmt : Stmt} (h : ∀ e ∈ stmt.exprs, w.scope.Tidy e) :
    Source.clause? ((if stmt.declares then "var " else "") ++ w.statementText stmt).toList =
      some (.item (.statement (w.statementText stmt))) := by
  cases hdeclares : stmt.declares with
  | false =>
    rw [if_neg Bool.false_ne_true, String.empty_append]
    exact clause?_of_begins (begins_statementText h).1
  | true =>
    cases stmt with
    | assign target value offset declares =>
      have htext := statementText_assign (w := w) offset declares
        (h target (by simp [Stmt.exprs])) (h value (by simp [Stmt.exprs]))
      have hlong : firstWord (w.statementText (.assign target value offset declares)).toList ≠
          (w.statementText (.assign target value offset declares)).toList := by
        intro hall
        have hblank := List.takeWhile_eq_self_iff.mp hall ' ' (by rw [htext]; simp)
        exact absurd hblank (by decide)
      have hvar : "var " ++ w.statementText (.assign target value offset declares) =
          "var" ++ (" " ++ w.statementText (.assign target value offset declares)) := by
        simp [← String.toList_inj]
      rw [if_pos rfl, hvar, clause?_var, if_neg hlong]
    | _ => cases hdeclares

/-! ## Returns -/

theorem returning_eq {value : Option Expr} (h : ∀ e ∈ value, w.scope.Tidy e) :
    w.returning value =
      .ok (((w.returned value).map fun text => "return" ++ (" " ++ text)).getD "return") := by
  obtain ⟨bare, hbare⟩ : ∃ bare, w.isBareReturn value = .ok bare := by
    unfold isBareReturn
    split
    · exact ⟨_, rfl⟩
    · rename_i index
      obtain ⟨c, hc, -⟩ := (h _ rfl).named.here
      exact ⟨_, Outcome.bind_eq_ok.mpr ⟨c, hc, rfl⟩⟩
    · exact ⟨_, rfl⟩
  unfold returned isBare returning
  rw [hbare]
  cases bare with
  | true => rfl
  | false =>
    cases value with
    | none => cases hbare
    | some e =>
      have htext : "return " ++ w.scope.exprText e = "return" ++ (" " ++ w.scope.exprText e) := by
        simp [← String.toList_inj]
      simp [(h e rfl).expr_eq, bind, Except.bind, pure, Except.pure, Except.toOption, htext]

/-! ## Contents -/

theorem exists_contentText (h : ∀ e ∈ c.exprs, w.scope.Tidy e) :
    ∃ text, w.contentText c = .ok text := by
  cases c with
  | statement stmt => exact ⟨_, statement_eq h⟩
  | test word e | iteration element e | subject e | pattern e =>
    have he := (h e (List.mem_singleton_self e)).expr_eq
    exact ⟨_, Outcome.bind_eq_ok.mpr ⟨_, he, rfl⟩⟩
  | ret value =>
    refine ⟨_, returning_eq ?_⟩
    rintro e rfl
    exact h e (List.mem_singleton_self e)
  | _ => exact ⟨_, rfl⟩

section Contents

variable (hslots : ∀ slot, isPlain (w.scope.names.name slot) = true)
  (htidy : ∀ e ∈ c.exprs, w.scope.Tidy e)

include hslots htidy

/-- **Lines but comments** are one line of the text each. -/
theorem clear_of_contentText (hc : c.isRead = true) (h : w.contentText c = .ok text) :
    Clear text := by
  have hvar : Clear "var " := ⟨⟨'v', _, rfl, by decide, by decide⟩, by decide⟩
  have hcolon : '\n' ∉ ":".toList := by decide
  cases c with
  | declaration slot =>
    cases h
    exact hvar.append (isPlain_unbroken (hslots slot))
  | statement stmt =>
    cases (statement_eq htidy).symm.trans h
    obtain ⟨hbegins, hunbroken⟩ := begins_statementText htidy
    cases stmt.declares with
    | false => simpa using hbegins.clear hunbroken
    | true => exact hvar.append hunbroken
  | test word e =>
    have he := htidy e (List.mem_singleton_self e)
    have hword : isWord word.toList = true :=
      (by decide : ∀ word ∈ ["if", "elif", "while"], isWord word.toList = true) word
        (List.contains_iff_mem.mp hc)
    rw [contentText, he.expr_eq] at h
    cases h
    exact (((Clear.word hword).append (by decide)).append he.text_unbroken).append hcolon
  | iteration element iterable =>
    have he := htidy iterable (List.mem_singleton_self _)
    have hfor : Clear "for " := ⟨⟨'f', _, rfl, by decide, by decide⟩, by decide⟩
    rw [contentText, he.expr_eq] at h
    cases h
    exact (((hfor.append (isPlain_unbroken (hslots element))).append (by decide)).append
      he.text_unbroken).append hcolon
  | subject e =>
    have he := htidy e (List.mem_singleton_self e)
    have hmatch : Clear "match " := ⟨⟨'m', _, rfl, by decide, by decide⟩, by decide⟩
    rw [contentText, he.expr_eq] at h
    cases h
    exact (hmatch.append he.text_unbroken).append hcolon
  | pattern e =>
    have he := htidy e (List.mem_singleton_self e)
    rw [contentText, he.expr_eq] at h
    cases h
    exact (he.begins.clear he.text_unbroken).append hcolon
  | wildcard =>
    cases h
    split
    · exact (Clear.word (by decide : isWord "_".toList = true)).append hcolon
    · exact (hvar.append (by decide : '\n' ∉ "_".toList)).append hcolon
  | ret value =>
    have hvalue : ∀ e ∈ value, w.scope.Tidy e := by
      rintro e rfl
      exact htidy e (List.mem_singleton_self e)
    have hreturn : Clear "return" := .word (by decide)
    cases (returning_eq hvalue).symm.trans h
    unfold returned
    split
    · exact hreturn
    · cases value with
      | none => exact hreturn
      | some e =>
        refine hreturn.append ?_
        simp [(hvalue e rfl).text_unbroken]
  | otherwise =>
    cases h
    exact (Clear.word (by decide : isWord "else".toList = true)).append hcolon
  | leaveLoop | nextTurn | pass =>
    cases h
    exact .word (by decide)
  | label id | remark text => cases hc

/-- **What a line says** is what it should say. -/
theorem clause?_of_contentText {k : Clause} (hk : w.clause? c = some k)
    (h : w.contentText c = .ok text) : Source.clause? text.toList = some k := by
  have hheaded {word middle : String} (hword : isWord word.toList = true)
      (htext : text = word ++ " " ++ middle ++ ":") :
      String.ofList (firstWord text.toList) = word ∧ between? word text.toList = some middle := by
    rw [htext, String.append_assoc, String.append_assoc]
    exact ⟨firstWord_of_word hword _, between?_eq word middle⟩
  cases c with
  | declaration slot =>
    cases hk
    cases h
    have hname := hslots slot
    have hvar : "var " ++ w.scope.names.name slot = "var" ++ (" " ++ w.scope.names.name slot) := by
      simp [← String.toList_inj]
    have hword : isWord (w.scope.names.name slot).toList = true := by
      unfold isPlain at hname
      exact (Bool.and_eq_true_iff.mp hname).1
    rw [hvar, clause?_var, if_pos (firstWord_of_isWord hword)]
  | statement stmt =>
    cases hk
    cases (statement_eq htidy).symm.trans h
    exact clause?_statement htidy
  | test word e =>
    have he := htidy e (List.mem_singleton_self e)
    rw [contentText, he.expr_eq] at h
    cases h
    unfold clause? at hk
    split at hk
    -- The words that head a line with a test are those of conditionals and loops.
    case h_3 | h_4 | h_5 =>
      rename_i heq
      cases heq
      cases hk
      obtain ⟨hfirst, hbetween⟩ := hheaded (by decide) rfl
      simp only [Source.clause?, hfirst, hbetween, Option.map_some]
    case h_12 => cases hk
    all_goals (rename_i heq; cases heq)
  | iteration element iterable =>
    have he := htidy iterable (List.mem_singleton_self _)
    rw [contentText, he.expr_eq] at h
    cases hk
    cases h
    have htext : "for " ++ w.scope.names.name element ++ " in " ++ w.scope.exprText iterable ++ ":" =
        "for" ++ " " ++ w.iterationHead element iterable ++ ":" := by
      simp [iterationHead, String.append_assoc]
    obtain ⟨hfirst, hbetween⟩ := hheaded (by decide) htext
    simp only [Source.clause?, hfirst, hbetween, Option.map_some]
  | subject e =>
    have he := htidy e (List.mem_singleton_self e)
    rw [contentText, he.expr_eq] at h
    cases hk
    cases h
    have htext : "match " ++ w.scope.exprText e ++ ":" =
        "match" ++ " " ++ w.scope.exprText e ++ ":" := by
      simp
    obtain ⟨hfirst, hbetween⟩ := hheaded (by decide) htext
    simp only [Source.clause?, hfirst, hbetween, Option.map_some]
  | ret value =>
    have hvalue : ∀ e ∈ value, w.scope.Tidy e := by
      rintro e rfl
      exact htidy e (List.mem_singleton_self e)
    cases hk
    cases (returning_eq hvalue).symm.trans h
    cases w.returned value with
    | none => rfl
    | some text => exact clause?_return text
  | otherwise | leaveLoop | nextTurn =>
    cases hk
    cases h
    rfl
  | pattern e | wildcard | pass | label id | remark text => cases hk

end Contents

end Writer

end Unscript.Source
