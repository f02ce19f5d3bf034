import Unscript.Proofs.Source.Precedence
import Unscript.Proofs.Source.Printing

/-!
# How texts begin

A reader knows a line by its first word. What is written of an expression does not begin with a word
that begins a construct, nor like a comment, and no blank stands before it.

* `Source.Begins`: a text that begins a line as an expression does.
* `Source.Scope.Opens`: an expression whose texts begin so.

Results:
* `Source.IsLeaf.begins`, `Source.Begins.append`: how leaves begin, and texts with more behind them.
* `Source.Scope.opens`: what is written of an expression begins so.
-/

namespace Unscript.Source

/-- A text that begins a line as an expression does. -/
structure Begins (text : String) : Prop where
  word : String.ofList (firstWord text.toList) ∉ blockWords
  head : ∃ c cs, text.toList = c :: cs ∧ Text.isBlank c = false ∧ c ≠ '#'

theorem IsLeaf.begins {t : String} (h : IsLeaf t) : Begins t := by
  refine ⟨h.word, ?_⟩
  have hhead := h.head
  cases ht : t.toList with
  | nil => simp [ht] at hhead
  | cons c cs =>
    rw [ht, List.head?_cons, Option.any_some] at hhead
    exact ⟨c, cs, rfl, isBlank_of_opensLeaf hhead⟩

/-- A text that begins with a sign. -/
theorem begins_sign {text : String} {c : Char} {cs : List Char} (htext : text.toList = c :: cs)
    (hword : continuesIdentifier c = false) (hblank : Text.isBlank c = false) (hne : c ≠ '#') :
    Begins text := by
  refine ⟨?_, c, cs, htext, hblank, hne⟩
  rw [htext, firstWord, List.takeWhile_cons_of_neg (by simp [hword])]
  decide

/-- What stands behind a text does not change how it begins, unless its first word goes on. -/
theorem Begins.append {text : String} (h : Begins text) {more : String}
    (hmore : ∀ c ∈ more.toList.head?, continuesIdentifier c = false) : Begins (text ++ more) := by
  obtain ⟨c, cs, htext, hblank, hne⟩ := h.head
  refine ⟨?_, c, cs ++ more.toList, by rw [String.toList_append, htext, List.cons_append], hblank,
    hne⟩
  have hword := h.word
  have hnone : more.toList.takeWhile continuesIdentifier = [] := by
    cases hm : more.toList with
    | nil => rfl
    | cons d ds => exact List.takeWhile_cons_of_neg (by simp [hmore d (by simp [hm])])
  rw [String.toList_append, firstWord, List.takeWhile_append, hnone, List.append_nil]
  unfold firstWord at hword
  split
  · rename_i hall
    rwa [(List.takeWhile_prefix _).eq_of_length hall] at hword
  · exact hword

theorem begins_within {w : Written} (h : Begins w.text) (needed : Nat) :
    Begins (w.within needed) := by
  unfold Written.within
  split
  · exact begins_sign (c := '(') (by simp; rfl) (by decide) (by decide) (by decide)
  · exact h

/-- A plain name with arguments behind it. -/
theorem begins_apply {name : String} (h : isPlain name = true) (texts : List String) :
    Begins (name ++ "(" ++ commaList texts ++ ")") := by
  rw [String.append_assoc, String.append_assoc]
  exact (IsLeaf.of_isPlain h).begins.append (by simp; decide)

/-- An operator before its operand, a sign or a word with a blank behind it. -/
theorem begins_prefixed (op : UnaryOp) (text : String) : Begins (prefixed op text) := by
  obtain ⟨more, hmore⟩ : ∃ more, prefixed op text = op.symbol ++ more := by
    unfold prefixed
    split
    · exact ⟨"(" ++ text ++ ")", by simp only [String.append_assoc]⟩
    · exact ⟨text, rfl⟩
  rw [hmore]
  cases op with
  | not =>
    have hword : Begins "not" := ⟨by decide, 'n', ['o', 't'], rfl, by decide, by decide⟩
    have htext : UnaryOp.not.symbol ++ more = "not" ++ (" " ++ more) := by
      simp [UnaryOp.symbol, ← String.toList_inj]
    rw [htext]
    exact hword.append (by simp; decide)
  | neg =>
    exact begins_sign (c := '-') (by simp [UnaryOp.symbol]; rfl) (by decide) (by decide) (by decide)
  | bitNot =>
    exact begins_sign (c := '~') (by simp [UnaryOp.symbol]; rfl) (by decide) (by decide) (by decide)

/-! ## Expressions -/

namespace Scope

/-- An expression whose texts begin a line as an expression does. -/
def Opens (s : Scope) (e : Expr) : Prop :=
  ∀ w, s.write e = .ok w → Begins w.text

variable {s : Scope} {e obj left value : Expr} {name : Nat} {args : List Expr}

theorem begins_of_nodePath? {path : String} (h : s.nodePath? name args = .ok (some path)) :
    Begins path := by
  obtain ⟨rest, rfl⟩ : ∃ rest, path = "$" ++ rest := by
    unfold nodePath? at h
    split at h
    · obtain ⟨text, -, h⟩ := Outcome.bind_eq_ok.mp h
      split at h
      · cases h
      · split at h
        · obtain ⟨c, -, h⟩ := Outcome.bind_eq_ok.mp h
          split at h
          · cases h
            exact ⟨_, rfl⟩
          · cases h
        · cases h
    · cases h
  exact begins_sign (c := '$') (by simp; rfl) (by decide) (by decide) (by decide)

namespace Opens

theorem const {index : Nat} (h : s.Refers (.const index)) : s.Opens (.const index) := by
  intro w hw
  obtain ⟨c, hc, hwritable⟩ := h
  obtain ⟨negative, cs, hliteral, hleaf⟩ := isLeaf_literal hwritable
  rw [write] at hw
  obtain ⟨c', hc', hw⟩ := Outcome.bind_eq_ok.mp hw
  cases hc.symm.trans hc'
  obtain ⟨text, htext, hw⟩ := Outcome.bind_eq_ok.mp hw
  cases hliteral.symm.trans htext
  cases hw
  cases negative with
  | true => exact begins_sign (c := '-') (by simp [minus]; rfl) (by decide) (by decide) (by decide)
  | false => exact hleaf.begins

theorem nameOf (hwrite : s.write e = (do return .atom (← s.identifier name))) (h : s.IsName name) :
    s.Opens e := by
  intro w hw
  obtain ⟨text, htext, hplain⟩ := h
  rw [hwrite, htext] at hw
  cases hw
  exact (IsLeaf.of_isPlain hplain).begins

theorem attr (h : s.Opens obj) : s.Opens (.attr obj name) := by
  intro w hw
  rw [write] at hw
  obtain ⟨v, hv, hw⟩ := Outcome.bind_eq_ok.mp hw
  obtain ⟨text, -, hw⟩ := Outcome.bind_eq_ok.mp hw
  cases hw
  show Begins (v.within atomic ++ "." ++ text)
  rw [String.append_assoc]
  exact (begins_within (h v hv) atomic).append (by simp; decide)

theorem index (key : Expr) (h : s.Opens obj) : s.Opens (.index obj key) := by
  intro w hw
  rw [write] at hw
  obtain ⟨v, hv, hw⟩ := Outcome.bind_eq_ok.mp hw
  obtain ⟨k, -, hw⟩ := Outcome.bind_eq_ok.mp hw
  cases hw
  show Begins (v.within atomic ++ "[" ++ k.text ++ "]")
  rw [String.append_assoc, String.append_assoc]
  exact (begins_within (h v hv) atomic).append (by simp; decide)

theorem binary (op : BinaryOp) (right : Expr) (h : s.Opens left) :
    s.Opens (.binary op left right) := by
  intro w hw
  rw [write] at hw
  obtain ⟨l, hl, hw⟩ := Outcome.bind_eq_ok.mp hw
  obtain ⟨r, -, hw⟩ := Outcome.bind_eq_ok.mp hw
  cases hw
  show Begins (l.within op.strength ++ " " ++ op.symbol ++ " " ++ r.within (op.strength + 1))
  simp only [String.append_assoc]
  exact (begins_within (h l hl) op.strength).append (by simp; decide)

theorem unary (op : UnaryOp) (operand : Expr) : s.Opens (.unary op operand) := by
  intro w hw
  rw [write] at hw
  obtain ⟨v, -, hw⟩ := Outcome.bind_eq_ok.mp hw
  cases hw
  exact begins_prefixed op _

theorem cast (h : s.Opens value) : s.Opens (.cast value name) := by
  intro w hw
  rw [write] at hw
  obtain ⟨v, hv, hw⟩ := Outcome.bind_eq_ok.mp hw
  obtain ⟨text, -, hw⟩ := Outcome.bind_eq_ok.mp hw
  cases hw
  show Begins (v.within castStrength ++ " as " ++ text)
  rw [String.append_assoc]
  exact (begins_within (h v hv) castStrength).append (by simp; decide)

theorem method (h : s.Opens obj) : s.Opens (.method obj name args) := by
  intro w hw
  rw [write] at hw
  obtain ⟨path, hpath, hw⟩ := Outcome.bind_eq_ok.mp hw
  cases path with
  | some path =>
    cases hw
    by_cases hself : obj = .self
    · rw [if_pos hself] at hpath
      exact begins_of_nodePath? hpath
    · rw [if_neg hself] at hpath
      cases hpath
  | none =>
    obtain ⟨v, hv, hw⟩ := Outcome.bind_eq_ok.mp hw
    obtain ⟨text, -, hw⟩ := Outcome.bind_eq_ok.mp hw
    obtain ⟨texts, -, hw⟩ := Outcome.bind_eq_ok.mp hw
    cases hw
    show Begins (v.within atomic ++ "." ++ text ++ "(" ++ commaList texts ++ ")")
    simp only [String.append_assoc]
    exact (begins_within (h v hv) atomic).append (by simp; decide)

theorem call (h : s.IsName name) : s.Opens (.group (.call name) args) := by
  intro w hw
  rw [write] at hw
  obtain ⟨path, hpath, hw⟩ := Outcome.bind_eq_ok.mp hw
  cases path with
  | some path =>
    cases hw
    exact begins_of_nodePath? hpath
  | none =>
    obtain ⟨text, htext, hplain⟩ := h
    obtain ⟨text', htext', hw⟩ := Outcome.bind_eq_ok.mp hw
    cases htext.symm.trans htext'
    obtain ⟨texts, -, hw⟩ := Outcome.bind_eq_ok.mp hw
    cases hw
    exact begins_apply hplain texts

theorem builtin {index : Nat} (h : s.Refers (.group (.builtin index) args)) :
    s.Opens (.group (.builtin index) args) := by
  intro w hw
  rw [write] at hw
  obtain ⟨texts, -, hw⟩ := Outcome.bind_eq_ok.mp hw
  cases hw
  exact begins_apply (isPlain_builtinText h) texts

end Opens

/-- **What is written of an expression** begins a line as an expression does. -/
theorem opens (s : Scope) : ∀ e, s.Named e → s.Opens e
  | .const _, h => .const h.here
  | .bool b, _ => by
    intro w hw
    rw [write_bool] at hw
    cases hw
    exact (isLeaf_of_mem (t := if b then "true" else "false")
      (by cases b <;> simp [fixedLeaves])).begins
  | .slot slot, h => by
    intro w hw
    rw [write_slot] at hw
    cases hw
    exact (IsLeaf.of_isPlain h.here).begins
  | .self, _ => by
    intro w hw
    rw [write_self] at hw
    cases hw
    exact (isLeaf_of_mem (by simp [fixedLeaves]) : IsLeaf "self").begins
  | .member _, h => .nameOf (by rw [write]) h.here
  | .global _, h => .nameOf (by rw [write]) h.here
  | .attr obj _, h => (opens s obj (h.child (by simp [Expr.children]))).attr
  | .index obj key, h => (opens s obj (h.child (by simp [Expr.children]))).index key
  | .binary op left right, h => (opens s left (h.child (by simp [Expr.children]))).binary op right
  | .unary op operand, _ => .unary op operand
  | .cast value _, h => (opens s value (h.child (by simp [Expr.children]))).cast
  | .method obj _ _, h => (opens s obj (h.child (by simp [Expr.children]))).method
  | .group (.call _) _, h => .call h.here
  | .group (.builtin _) _, h => .builtin h.here
  | .group .array items, _ => by
    intro w hw
    rw [write] at hw
    obtain ⟨texts, -, hw⟩ := Outcome.bind_eq_ok.mp hw
    cases hw
    exact begins_sign (c := '[') (by simp [Written.atom]; rfl) (by decide) (by decide) (by decide)
  | .group .dictionary items, _ => by
    intro w hw
    rw [write] at hw
    obtain ⟨texts, -, hw⟩ := Outcome.bind_eq_ok.mp hw
    cases hw
    exact begins_sign (c := '\x7b') (by simp [Written.atom]; rfl) (by decide) (by decide) (by decide)
  | .group .yield items, _ => by
    intro w hw
    rw [write] at hw
    obtain ⟨texts, -, hw⟩ := Outcome.bind_eq_ok.mp hw
    cases hw
    have hword : Begins "yield" := (isLeaf_of_mem (by simp [fixedLeaves])).begins
    show Begins ("yield(" ++ commaList texts ++ ")")
    have htext : "yield(" ++ commaList texts ++ ")" = "yield" ++ ("(" ++ commaList texts ++ ")") := by
      simp [← String.toList_inj]
    rw [htext]
    exact hword.append (by simp; decide)

theorem begins_expr {text : String} (hnamed : s.Named e) (h : s.expr e = .ok text) : Begins text := by
  obtain ⟨w, hw, rfl⟩ := write_of_expr h
  exact opens s e hnamed w hw

end Scope

end Unscript.Source
