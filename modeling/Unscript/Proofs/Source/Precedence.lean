import Mathlib.Data.List.Forall2
import Unscript.Proofs.Outcome
import Unscript.Proofs.Registry.Concrete
import Unscript.Proofs.Source.Literals
import Unscript.Proofs.Source.Meaning

/-!
# Precedence

What `Source.Scope.expr` writes reads back as the expression: parentheses stand wherever the strength
of an operator, the side of an operand or the sign that it begins with asks for them.

* `Source.Says`: a text with tokens that say something.

Results:
* `Source.expr_reads_back`: the text of an expression reads back as the expression.
-/

namespace Unscript.Source

open Phrase (Opens Lists Continues reserved)

/-! ## Texts and what they say -/

/-- A text whose tokens say something that holds together so strong. The tokens are signs and given
leaves. -/
def Says (leaves : List String) (text : String) (r : Phrase) (strength : Nat) : Prop :=
  ∃ ts, Spells ts text.toList ∧ Opens ts r strength ∧ ts ⊆ reserved ++ leaves

/-- Texts that say something each. -/
def SayAll (leaves : List String) (texts : List String) (rs : List Phrase) : Prop :=
  List.Forall₂ (fun text r => Says leaves text r 0) texts rs

theorem ne_empty_of_mem_reserved : ∀ t ∈ reserved, t ≠ "" := by
  decide

theorem symbol_mem_reserved (op : BinaryOp) : op.symbol ∈ reserved := by
  cases op <;> decide

theorem IsLeaf.ne_empty {t : String} (h : IsLeaf t) : t ≠ "" := by
  rintro rfl
  simpa using h.head

/-- No operator begins like a leaf. -/
theorem not_isSign_of_opensLeaf {c : Char} (h : opensLeaf c = true) : isSign c = false := by
  cases hs : isSign c with
  | false => rfl
  | true =>
    simp only [isSign, Bool.or_eq_true, beq_iff_eq] at hs
    rcases hs with rfl | rfl <;> exact absurd h (by decide)

theorem IsLeaf.ofLeaf {t : String} (h : IsLeaf t) : Phrase.ofLeaf t = .leaf t := by
  have hhead := h.head
  unfold Phrase.ofLeaf
  split
  next heq => simp [heq, opensLeaf, startsIdentifier] at hhead
  next heq => simp [heq, opensLeaf, startsIdentifier] at hhead
  next => rfl

theorem Phrase.Opens.ne_nil {ts : List String} {r : Phrase} {strength : Nat}
    (h : Opens ts r strength) : ts ≠ [] := by
  obtain ⟨t, us, rfl, -⟩ := h.exists_cons
  exact List.cons_ne_nil t us

namespace Says

variable {leaves : List String} {text other : String} {r l k : Phrase} {rs : List Phrase}
  {strength : Nat}

theorem mono (h : Says leaves text r strength) {needed : Nat} (hle : needed ≤ strength) :
    Says leaves text r needed := by
  obtain ⟨ts, hspells, hopens, hts⟩ := h
  exact ⟨ts, hspells, hopens.mono hle, hts⟩

theorem leaf {t : String} (h : IsLeaf t) (hmem : t ∈ leaves) : Says leaves t (.leaf t) atomic :=
  ⟨[t], .single h.ne_empty, h.ofLeaf ▸ Opens.leaf h.free, by simp [hmem]⟩

theorem parenthesized (h : Says leaves text r strength) :
    Says leaves ("(" ++ text ++ ")") r atomic := by
  obtain ⟨ts, hspells, hopens, hts⟩ := h
  have hopen : IsPunctuation "(" := isPunctuation_of_mem (by simp [punctuation])
  have hclose : IsPunctuation ")" := isPunctuation_of_mem (by simp [punctuation])
  refine ⟨"(" :: ts ++ [")"], ?_, hopens.parenthesized, ?_⟩
  · simpa using hopen.before (hclose.behind hspells)
  · have := hopen.reserved
    have := hclose.reserved
    simp_all

/-- A text in a place that needs a strength. -/
theorem within {w : Written} (h : Says leaves w.text r w.strength) {needed : Nat}
    (hneeded : needed ≤ atomic) : Says leaves (w.within needed) r needed := by
  unfold Written.within
  split_ifs with hweak
  · exact h.parenthesized.mono hneeded
  · exact h.mono (Nat.le_of_not_lt hweak)

theorem binary (op : BinaryOp) (hl : Says leaves text l op.strength)
    (hr : Says leaves other r (op.strength + 1)) :
    Says leaves (text ++ " " ++ op.symbol ++ " " ++ other) (.binary op l r) op.strength := by
  obtain ⟨ts, hspells, hopens, hts⟩ := hl
  obtain ⟨us, hspells', hopens', hus⟩ := hr
  have hmem : op.symbol ∈ reserved := symbol_mem_reserved op
  refine ⟨ts ++ op.symbol :: us, ?_, hopens.binary op hopens', ?_⟩
  · have hright := hspells'.blank (ne_empty_of_mem_reserved _ hmem) hopens'.ne_nil
    simpa using hspells.spaced hopens.ne_nil hright (by simp)
  · simp_all

theorem cast (h : Says leaves text r castStrength) {typeName : String} (hname : IsLeaf typeName)
    (hmem : typeName ∈ leaves) :
    Says leaves (text ++ " as " ++ typeName) (.cast r typeName) castStrength := by
  obtain ⟨ts, hspells, hopens, hts⟩ := h
  refine ⟨ts ++ ["as", typeName], ?_, hopens.cast hname.free, ?_⟩
  · have hright := (Spells.single hname.ne_empty).blank (by simp : "as" ≠ "") (by simp)
    simpa using hspells.spaced hopens.ne_nil hright (by simp)
  · have : "as" ∈ reserved := by simp [reserved]
    simp_all

theorem attr (h : Says leaves text r atomic) {name : String} (hname : IsLeaf name)
    (hmem : name ∈ leaves) : Says leaves (text ++ "." ++ name) (.attr r name) atomic := by
  obtain ⟨ts, hspells, hopens, hts⟩ := h
  have hpoint : IsPunctuation "." := isPunctuation_of_mem (by simp [punctuation])
  refine ⟨ts ++ [".", name], ?_, hopens.attr hname.free, ?_⟩
  · simpa using hspells.append (hpoint.before (.single hname.ne_empty)) (.of_head rfl)
  · have := hpoint.reserved
    simp_all

theorem index (h : Says leaves text r atomic) (hk : Says leaves other k strength) :
    Says leaves (text ++ "[" ++ other ++ "]") (.index r k) atomic := by
  obtain ⟨ts, hspells, hopens, hts⟩ := h
  obtain ⟨us, hspells', hopens', hus⟩ := hk
  have hopen : IsPunctuation "[" := isPunctuation_of_mem (by simp [punctuation])
  have hclose : IsPunctuation "]" := isPunctuation_of_mem (by simp [punctuation])
  refine ⟨ts ++ "[" :: us ++ ["]"], ?_, hopens.index (hopens'.mono (Nat.zero_le _)), ?_⟩
  · simpa using hspells.append (hopen.before (hclose.behind hspells')) (.of_head rfl)
  · have := hopen.reserved
    have := hclose.reserved
    simp_all

theorem not (h : Says leaves text r UnaryOp.not.strength) :
    Says leaves ("not " ++ text) (.unary .not r) UnaryOp.not.strength := by
  obtain ⟨ts, hspells, hopens, hts⟩ := h
  refine ⟨"not" :: ts, ?_, hopens.prefixed .not rfl, ?_⟩
  · simpa using hspells.blank (by simp : "not" ≠ "") hopens.ne_nil
  · have : "not" ∈ reserved := by simp [reserved]
    simp_all

/-- A sign before an operand that begins with no sign. -/
theorem signed {op : UnaryOp} (hop : op ≠ .not)
    (hapart : ∀ d ∈ text.toList.head?, isSign d = false) (h : Says leaves text r op.strength) :
    Says leaves (op.symbol ++ text) (.unary op r) op.strength := by
  obtain ⟨ts, hspells, hopens, hts⟩ := h
  have hprefix : Phrase.prefixOp? op.symbol = some op := by cases op <;> first | rfl | contradiction
  have hmem : op.symbol ∈ reserved := by cases op <;> first | decide | contradiction
  have hclose : Apart op.symbol.toList text.toList := by
    intro c hc d hd
    have hword : continuesIdentifier c = false := by
      cases op <;> simp [UnaryOp.symbol] at hop hc <;> subst hc <;> decide
    simp [runsOn, hword, hapart d hd]
  refine ⟨op.symbol :: ts, ?_, hopens.prefixed op hprefix, by simp_all⟩
  rw [String.toList_append]
  exact hspells.close (ne_empty_of_mem_reserved _ hmem) hclose

/-- An operator before its operand. -/
theorem prefixed (op : UnaryOp) (h : Says leaves text r op.strength) :
    Says leaves (Source.prefixed op text) (.unary op r) op.strength := by
  rcases eq_or_ne op .not with rfl | hop
  · exact h.not
  have hcond : (op != .not && beginsWithSign text) = beginsWithSign text := by simp [hop]
  unfold Source.prefixed
  rw [hcond]
  split_ifs with hbegins
  · have hparen : Says leaves ("(" ++ text ++ ")") r op.strength :=
      h.parenthesized.mono (Phrase.prefix_strength_le_atomic op)
    have := hparen.signed hop (by simp [isSign])
    simpa only [String.append_assoc] using this
  · refine h.signed hop ?_
    unfold beginsWithSign at hbegins
    cases hcs : text.toList with
    | nil => simp
    | cons c cs => simpa [hcs, isSign] using hbegins

end Says

/-! ## Lists -/

/-- Texts behind an expression, each behind its sign, with two signs in turn. -/
def behind (sign other : String) : List String → List Char
  | [] => []
  | text :: texts => sign.toList ++ ' ' :: text.toList ++ behind other sign texts

theorem commaList_toList (text : String) (texts : List String) :
    (commaList (text :: texts)).toList = text.toList ++ behind "," "," texts := by
  induction texts generalizing text with
  | nil => simp [commaList, behind]
  | cons next texts ih =>
    have hnext := ih next
    simp only [commaList, String.toList_intercalate, List.map_cons] at hnext ⊢
    rw [List.intercalate_cons_cons, hnext]
    simp [behind]

/-- Items of a dictionary are keys and values, with colons and commas in turn. -/
theorem behind_dictionaryItems {texts : List String} (heven : 2 ∣ texts.length) :
    behind "," "," (dictionaryItems texts) = behind "," ":" texts := by
  induction texts using dictionaryItems.induct with
  | case1 key value rest ih =>
    have hrest := ih (by simpa using heven)
    simp [dictionaryItems, behind, hrest]
  | case2 texts hshort =>
    match texts with
    | [] => rfl
    | [_] => simp at heven
    | key :: value :: rest => exact absurd rfl (hshort key value rest)

theorem dictionary_toList (key value : String) {texts : List String} (heven : 2 ∣ texts.length) :
    (commaList (dictionaryItems (key :: value :: texts))).toList =
      key.toList ++ behind ":" "," (value :: texts) := by
  rw [dictionaryItems, commaList_toList, behind_dictionaryItems heven]
  simp [behind]

/-- The signs that close a list. -/
def closing : List String := [")", "]", "\x7d"]

/-- The signs between the expressions of a list. -/
def between : List String := [",", ":"]

theorem isPunctuation_of_mem_closing {close : String} (h : close ∈ closing) :
    IsPunctuation close :=
  isPunctuation_of_mem (by simp only [closing, List.mem_cons] at h; simp only [punctuation, List.mem_cons]; tauto)

theorem isPunctuation_of_mem_between {sign : String} (h : sign ∈ between) : IsPunctuation sign :=
  isPunctuation_of_mem (by simp only [between, List.mem_cons] at h; simp only [punctuation, List.mem_cons]; tauto)

theorem comma_mem : "," ∈ between := by
  simp [between]

theorem colon_mem : ":" ∈ between := by
  simp [between]

theorem level_of_mem_closing : ∀ close ∈ closing, Phrase.level close = 0 := by
  decide

theorem level_of_mem_between : ∀ sign ∈ between, Phrase.level sign = 0 := by
  decide

theorem between_ne_closing : ∀ sign ∈ between, ∀ close ∈ closing, sign ≠ close := by
  decide

theorem behind_alone {sign close : String} (hsign : sign ∈ between) (hclose : close ∈ closing)
    (other : String) (texts : List String) :
    (behind sign other texts ++ close.toList).head?.all standsAlone = true := by
  cases texts with
  | nil => exact (isPunctuation_of_mem_closing hclose).first
  | cons text texts =>
    have hsign := isPunctuation_of_mem_between hsign
    obtain ⟨c, cs, hcs⟩ := List.exists_cons_of_ne_nil (String.toList_eq_nil_iff.not.mpr hsign.ne)
    have halone := hsign.first
    rw [hcs] at halone
    simpa [behind, hcs] using halone

namespace SayAll

variable {leaves texts : List String} {rs : List Phrase} {close : String}

/-- Texts behind an expression continue its list, which can close where a comma could stand. -/
theorem continues (hclose : close ∈ closing) (h : SayAll leaves texts rs) {sign other : String}
    (hsign : sign ∈ between) (hother : other ∈ between)
    (hlast : (if 2 ∣ texts.length then sign else other) = ",") :
    ∃ ts, Spells ts (behind sign other texts ++ close.toList) ∧
      Continues ts rs sign other close ∧ ts ⊆ reserved ++ leaves := by
  induction h generalizing sign other with
  | nil =>
    obtain rfl : sign = "," := by simpa using hlast
    have hsign := isPunctuation_of_mem_closing hclose
    exact ⟨[close], .single hsign.ne, .nil other (level_of_mem_closing close hclose),
      by simp [hsign.reserved]⟩
  | @cons text r texts rs htext _ ih =>
    obtain ⟨ts, hspells, hopens, hts⟩ := htext
    have hlast' : (if 2 ∣ texts.length then other else sign) = "," := by
      rw [List.length_cons] at hlast
      rw [← hlast]
      split_ifs <;> first | rfl | omega
    obtain ⟨us, hspells', hcontinues, hus⟩ := ih hother hsign hlast'
    have hitems := hspells.append hspells' (.of_head (behind_alone hother hclose sign texts))
    have hread := hcontinues.cons (between_ne_closing sign hsign close hclose)
      (level_of_mem_between sign hsign) hopens
    have hsign := isPunctuation_of_mem_between hsign
    refine ⟨sign :: ts ++ us, ?_, hread, ?_⟩
    · simpa [Source.behind] using hitems.blank hsign.ne (by simp [hopens.ne_nil])
    · have := hsign.reserved
      simp_all

/-- Texts with commas between them are a list. -/
theorem lists (hclose : close ∈ closing) (h : SayAll leaves texts rs) :
    ∃ ts, Spells ts ((commaList texts).toList ++ close.toList) ∧ Lists ts rs "," close ∧
      ts ⊆ reserved ++ leaves := by
  cases h with
  | nil =>
    have hsign := isPunctuation_of_mem_closing hclose
    refine ⟨[close], ?_, Lists.nil "," close, by simp [hsign.reserved]⟩
    simpa [commaList] using Spells.single hsign.ne
  | @cons text r texts rs htext hrest =>
    obtain ⟨ts, hspells, hopens, hts⟩ := htext
    obtain ⟨us, hspells', hcontinues, hus⟩ :=
      continues hclose hrest comma_mem comma_mem (ite_self _)
    refine ⟨ts ++ us, ?_, Lists.cons hclose hopens hcontinues, by simp_all⟩
    rw [commaList_toList, List.append_assoc]
    exact hspells.append hspells' (.of_head (behind_alone comma_mem hclose "," texts))

/-- Keys and values are a list with colons and commas in turn. -/
theorem dictionaryLists (hclose : close ∈ closing) (h : SayAll leaves texts rs)
    (heven : 2 ∣ texts.length) :
    ∃ ts, Spells ts ((commaList (dictionaryItems texts)).toList ++ close.toList) ∧
      Lists ts rs ":" close ∧ ts ⊆ reserved ++ leaves := by
  cases h with
  | nil =>
    have hsign := isPunctuation_of_mem_closing hclose
    refine ⟨[close], ?_, Lists.nil ":" close, by simp [hsign.reserved]⟩
    simpa [dictionaryItems, commaList] using Spells.single hsign.ne
  | @cons key r texts rs hkey hrest =>
    obtain ⟨ts, hspells, hopens, hts⟩ := hkey
    obtain ⟨us, hspells', hcontinues, hus⟩ :=
      continues hclose hrest colon_mem comma_mem
        (if_neg (by rw [List.length_cons] at heven; omega))
    refine ⟨ts ++ us, ?_, Lists.cons hclose hopens hcontinues, by simp_all⟩
    cases texts with
    | nil => simp at heven
    | cons value texts =>
      rw [dictionary_toList key value (by simpa using heven), List.append_assoc]
      exact hspells.append hspells' (.of_head (behind_alone colon_mem hclose "," _))

end SayAll

namespace Says

variable {leaves texts : List String} {text : String} {r : Phrase} {rs : List Phrase}

theorem apply (h : Says leaves text r atomic) (hargs : SayAll leaves texts rs) :
    Says leaves (text ++ "(" ++ commaList texts ++ ")") (.apply r rs) atomic := by
  obtain ⟨ts, hspells, hopens, hts⟩ := h
  obtain ⟨us, hspells', hlists, hus⟩ := hargs.lists (by simp [closing] : ")" ∈ closing)
  have hopen : IsPunctuation "(" := isPunctuation_of_mem (by simp [punctuation])
  refine ⟨ts ++ "(" :: us, ?_, hopens.apply hlists, ?_⟩
  · simpa using hspells.append (hopen.before hspells') (.of_head rfl)
  · have := hopen.reserved
    simp_all

theorem array (h : SayAll leaves texts rs) :
    Says leaves ("[" ++ commaList texts ++ "]") (.array rs) atomic := by
  obtain ⟨ts, hspells, hlists, hts⟩ := h.lists (by simp [closing] : "]" ∈ closing)
  have hopen : IsPunctuation "[" := isPunctuation_of_mem (by simp [punctuation])
  refine ⟨"[" :: ts, ?_, Opens.array hlists, ?_⟩
  · simpa using hopen.before hspells
  · have := hopen.reserved
    simp_all

theorem dictionary (h : SayAll leaves texts rs) (heven : 2 ∣ texts.length) :
    Says leaves ("\x7b" ++ commaList (dictionaryItems texts) ++ "\x7d") (.dictionary rs) atomic := by
  obtain ⟨ts, hspells, hlists, hts⟩ :=
    h.dictionaryLists (by simp [closing] : "\x7d" ∈ closing) heven
  have hopen : IsPunctuation "\x7b" := isPunctuation_of_mem (by simp [punctuation])
  refine ⟨"\x7b" :: ts, ?_, Opens.dictionary hlists, ?_⟩
  · simpa using hopen.before hspells
  · have := hopen.reserved
    simp_all

end Says

/-! ## Leaves -/

namespace Says

variable {s : Scope} {leaves : List String}

/-- A constant says its literal, with the sign as an operator. -/
theorem const {index : Nat} {c : Constant} (hc : s.constant index = .ok c) (hw : s.Writable c)
    (hleaves : s.ownLeaves (.const index) ⊆ leaves) :
    ∃ text, s.literal c = .ok text ∧
      Says leaves text (.signed (s.constantText index))
        (if text.startsWith "-" then UnaryOp.neg.strength else atomic) := by
  obtain ⟨negative, cs, htext, hleaf⟩ := isLeaf_literal hw
  refine ⟨_, htext, ?_⟩
  have hconst : s.constantText index = String.ofList (minus negative ++ cs) := by
    simp [Scope.constantText, hc, htext, bind, Except.bind, Except.toOption]
  have hsign : ∀ d ∈ cs.head?, isSign d = false := by
    intro d hd
    have hopens := hleaf.head
    rw [String.toList_ofList, Option.mem_def.mp hd] at hopens
    exact not_isSign_of_opensLeaf hopens
  have hstarts : (String.ofList (minus negative ++ cs)).startsWith "-" = negative := by
    cases negative with
    | true => simp [String.startsWith_string_iff, minus]
    | false =>
      rw [Bool.eq_false_iff, ne_eq, String.startsWith_string_iff]
      rintro ⟨ds, hds⟩
      have : cs = '-' :: ds := by simpa [minus] using hds.symm
      simp [this, isSign] at hsign
  have hunsigned : unsigned (String.ofList (minus negative ++ cs)) = String.ofList cs := by
    unfold unsigned
    cases negative with
    | true => simp [minus]
    | false =>
      split
      next ds hds =>
        have : cs = '-' :: ds := by simpa [minus] using hds
        simp [this, isSign] at hsign
      next => simp [minus]
  rw [hconst, Phrase.signed, hstarts, hunsigned]
  rw [Scope.ownLeaves, hconst, hunsigned] at hleaves
  have hoperand : Says leaves (String.ofList cs) (.leaf (String.ofList cs)) atomic :=
    leaf hleaf (by simpa using hleaves)
  cases negative with
  | true =>
    have hneg : Says leaves (UnaryOp.neg.symbol ++ String.ofList cs) _ _ :=
      (hoperand.mono (Phrase.prefix_strength_le_atomic .neg)).signed (by simp) (by simpa using hsign)
    simpa [minus, UnaryOp.symbol] using hneg
  | false => simpa [minus] using hoperand

end Says

/-- The name of a builtin function is plain, also if it has none. -/
theorem Scope.isPlain_builtinText {s : Scope} {index : Nat} {args : List Expr}
    (h : s.Refers (.group (.builtin index) args)) : isPlain (s.builtinText index) = true := by
  unfold Scope.builtinText
  cases hknown : (s.dialect.builtinName? index).filter fun name => !name.isEmpty with
  | none => exact isPlain_numbered (by decide : isWord "__builtin_".toList = true) index
  | some name =>
    obtain ⟨hname, hne⟩ := Option.filter_eq_some_iff.mp hknown
    exact h name hname (by simpa using hne)

/-! ## Short paths -/

/-- The short form of a call that gets a node by a path. -/
def shortPath (path : String) : String :=
  "$" ++ if isNodePath path then path else stringLiteral path

/-- A path of identifiers begins like one. -/
theorem isNodePath_head {path : String} (h : isNodePath path = true) :
    ∀ cs, path.toList ≠ '"' :: cs := by
  intro cs hcs
  have hbreak : withoutFinalBreak path.toList = '"' :: withoutFinalBreak cs := by
    rw [hcs]
    cases cs with
    | nil => rfl
    | cons c cs => simp only [withoutFinalBreak, List.getLast?_cons_cons, List.dropLast_cons_cons]; split_ifs <;> rfl
  rw [isNodePath, hbreak, List.splitOn_cons_eq_if_modifyHead, if_neg (by decide)] at h
  obtain ⟨first, rest, hparts⟩ := List.exists_cons_of_ne_nil (List.splitOn_ne_nil '/' (withoutFinalBreak cs))
  simp [hparts, isWord, startsIdentifier] at h

/-- A short path is read as the call that it stands for. -/
theorem ofLeaf_shortPath (path : String) :
    Phrase.ofLeaf (shortPath path) = .apply (.leaf "get_node") [.leaf (stringLiteral path)] := by
  unfold shortPath
  split_ifs with hpath
  · have hhead := isNodePath_head hpath
    unfold Phrase.ofLeaf
    split
    next cs hcs => exact absurd (by simpa using hcs) (hhead cs)
    next cs _ hcs =>
      obtain rfl : path.toList = cs := by simpa using hcs
      simp
    next _ hnot => exact absurd (by simp) (hnot path.toList)
  · simp [Phrase.ofLeaf, stringLiteral]

/-- The short form of a call is that of a literal path, and the call gets a node. -/
theorem nodePath?_cases {s : Scope} {name : Nat} {args : List Expr} (hname : s.IsName name)
    (hargs : ∀ e ∈ args, s.Refers e) :
    s.nodePath? name args = .ok none ∨
      ∃ index path, args = [.const index] ∧ s.constant index = .ok (.string path) ∧
        s.identifier name = .ok "get_node" ∧ s.nodePath? name args = .ok (some (shortPath path)) := by
  obtain ⟨text, htext, -⟩ := hname
  unfold Scope.nodePath?
  split
  next arg hdollar =>
    rw [htext]
    rcases eq_or_ne text "get_node" with rfl | hne
    · cases arg
      case const index =>
        obtain ⟨c, hc, -⟩ := hargs (.const index) List.mem_cons_self
        cases c
        case string path =>
          exact .inr ⟨index, path, rfl, hc, rfl, by simp [hc, bind, Except.bind, pure, Except.pure, shortPath]⟩
        all_goals exact .inl (by simp [hc, bind, Except.bind, pure, Except.pure])
      all_goals exact .inl rfl
    · exact .inl (by simp [hne, bind, Except.bind, pure, Except.pure])
  next => exact .inl rfl

/-! ## Expressions -/

namespace Says

variable {s : Scope} {leaves : List String}

/-- A plain name among the leaves. -/
theorem name {index : Nat} (h : s.IsName index) (hmem : s.nameText index ∈ leaves) :
    s.identifier index = .ok (s.nameText index) ∧ IsLeaf (s.nameText index) ∧
      Says leaves (s.nameText index) (.leaf (s.nameText index)) atomic := by
  obtain ⟨text, htext, hplain⟩ := h
  have heq : s.nameText index = text := by simp [Scope.nameText, htext, Except.toOption]
  rw [heq] at hmem ⊢
  exact ⟨htext, .of_isPlain hplain, leaf (.of_isPlain hplain) hmem⟩

/-- The short form of a call says the call. -/
theorem short {name index : Nat} {path : String} (hname : s.identifier name = .ok "get_node")
    (hc : s.constant index = .ok (.string path)) (hmem : shortPath path ∈ leaves) :
    Says leaves (shortPath path) (.apply (.leaf (s.nameText name)) [s.phrase (.const index)])
      atomic := by
  have hcallee : s.nameText name = "get_node" := by simp [Scope.nameText, hname, Except.toOption]
  have hpath : s.phrase (.const index) = .leaf (stringLiteral path) := by
    have htext : s.constantText index = stringLiteral path := by
      simp [Scope.constantText, hc, Scope.literal, bind, Except.bind, pure, Except.pure,
        Except.toOption]
    have hstarts : (stringLiteral path).startsWith "-" = false := by
      rw [Bool.eq_false_iff, ne_eq, String.startsWith_string_iff, stringLiteral_toList]
      simp
    rw [Scope.phrase_const, htext, Phrase.signed, hstarts]
    rfl
  have hhead : (shortPath path).toList.head? = some '$' := by simp [shortPath]
  have hfree : shortPath path ∉ reserved := fun hm =>
    (by decide : ∀ t ∈ reserved, t.toList.head? ≠ some '$') _ hm hhead
  have hne : shortPath path ≠ "" := by
    intro he
    simp [he] at hhead
  rw [hcallee, hpath, ← ofLeaf_shortPath]
  exact ⟨[shortPath path], .single hne, Opens.leaf hfree, by simp [hmem]⟩

end Says

/-- An expression has a text, and the text says it. -/
def Scope.Writes (s : Scope) (leaves : List String) (e : Expr) : Prop :=
  ∃ w, s.write e = .ok w ∧ Says leaves w.text (s.phrase e) w.strength

/-- Expressions have texts, and the texts say them. -/
def Scope.WritesAll (s : Scope) (leaves : List String) (es : List Expr) : Prop :=
  ∃ texts, s.writeAll es = .ok texts ∧ SayAll leaves texts (s.phrases es)

namespace Scope.Writes

variable {s : Scope} {leaves : List String} {e obj key left right value : Expr} {name : Nat}
  {items args : List Expr}

theorem const {index : Nat} (hrefers : s.Refers (.const index))
    (hleaves : s.ownLeaves (.const index) ⊆ leaves) : s.Writes leaves (.const index) := by
  obtain ⟨c, hc, hw⟩ := hrefers
  obtain ⟨text, htext, hsays⟩ := Says.const hc hw hleaves
  refine ⟨⟨text, _⟩, ?_, hsays⟩
  simp only [Scope.write, hc, htext, bind, Except.bind]
  rfl

theorem bool (b : Bool) (hmem : (if b then "true" else "false") ∈ leaves) :
    s.Writes leaves (.bool b) := by
  have hleaf : IsLeaf (if b then "true" else "false") :=
    isLeaf_of_mem (by cases b <;> simp [fixedLeaves])
  refine ⟨_, Scope.write_bool s b, ?_⟩
  rw [Scope.phrase]
  exact .leaf hleaf hmem

theorem slot {slot : Nat} (hplain : isPlain (s.names.name slot) = true)
    (hmem : s.names.name slot ∈ leaves) : s.Writes leaves (.slot slot) := by
  refine ⟨_, Scope.write_slot s slot, ?_⟩
  rw [Scope.phrase]
  exact .leaf (.of_isPlain hplain) hmem

theorem self (hmem : "self" ∈ leaves) : s.Writes leaves .self := by
  refine ⟨_, Scope.write_self s, ?_⟩
  have hleaf : IsLeaf "self" := isLeaf_of_mem (by simp [fixedLeaves])
  rw [Scope.phrase]
  exact .leaf hleaf hmem

theorem member (hname : s.IsName name) (hmem : s.nameText name ∈ leaves) :
    s.Writes leaves (.member name) := by
  obtain ⟨hid, -, hsays⟩ := Says.name hname hmem
  refine ⟨.atom _, by simp only [Scope.write, hid, bind, Except.bind]; rfl, ?_⟩
  rw [Scope.phrase]
  exact hsays

theorem global (hname : s.IsName name) (hmem : s.nameText name ∈ leaves) :
    s.Writes leaves (.global name) := by
  obtain ⟨hid, -, hsays⟩ := Says.name hname hmem
  refine ⟨.atom _, by simp only [Scope.write, hid, bind, Except.bind]; rfl, ?_⟩
  rw [Scope.phrase]
  exact hsays

theorem attr (h : s.Writes leaves obj) (hname : s.IsName name) (hmem : s.nameText name ∈ leaves) :
    s.Writes leaves (.attr obj name) := by
  obtain ⟨w, hw, hobj⟩ := h
  obtain ⟨hid, hleaf, -⟩ := Says.name hname hmem
  refine ⟨.atom _, by simp only [Scope.write, hw, hid, bind, Except.bind]; rfl, ?_⟩
  rw [Scope.phrase]
  exact (hobj.within (Nat.le_refl _)).attr hleaf hmem

theorem index (h : s.Writes leaves obj) (hkey : s.Writes leaves key) :
    s.Writes leaves (.index obj key) := by
  obtain ⟨w, hw, hobj⟩ := h
  obtain ⟨v, hv, hkey⟩ := hkey
  refine ⟨.atom _, by simp only [Scope.write, hw, hv, bind, Except.bind]; rfl, ?_⟩
  rw [Scope.phrase]
  exact (hobj.within (Nat.le_refl _)).index hkey

theorem binary (op : BinaryOp) (hl : s.Writes leaves left) (hr : s.Writes leaves right) :
    s.Writes leaves (.binary op left right) := by
  obtain ⟨w, hw, hleft⟩ := hl
  obtain ⟨v, hv, hright⟩ := hr
  have hstrong : op.strength + 1 ≤ atomic := Phrase.strength_lt_atomic op
  refine ⟨⟨_, op.strength⟩, by simp only [Scope.write, hw, hv, bind, Except.bind]; rfl, ?_⟩
  rw [Scope.phrase]
  exact (hleft.within (Nat.le_of_succ_le hstrong)).binary op (hright.within hstrong)

theorem unary (op : UnaryOp) (h : s.Writes leaves e) : s.Writes leaves (.unary op e) := by
  obtain ⟨w, hw, hoperand⟩ := h
  refine ⟨⟨_, op.strength⟩, by simp only [Scope.write, hw, bind, Except.bind]; rfl, ?_⟩
  rw [Scope.phrase]
  exact (hoperand.within (Phrase.prefix_strength_le_atomic op)).prefixed op

theorem cast (h : s.Writes leaves value) (hname : s.IsName name) (hmem : s.nameText name ∈ leaves) :
    s.Writes leaves (.cast value name) := by
  obtain ⟨w, hw, hvalue⟩ := h
  obtain ⟨hid, hleaf, -⟩ := Says.name hname hmem
  refine ⟨⟨_, castStrength⟩, by simp only [Scope.write, hw, hid, bind, Except.bind]; rfl, ?_⟩
  rw [Scope.phrase]
  exact (hvalue.within (Nat.le_of_lt (Phrase.strength_lt_atomic .isA))).cast hleaf hmem

theorem method (h : s.Writes leaves obj) (hargs : s.WritesAll leaves args)
    (hrefers : ∀ e ∈ args, s.Refers e) (hname : s.IsName name)
    (hleaves : s.nameText name :: (s.shortPath? name args).toList ⊆ leaves) :
    s.Writes leaves (.method obj name args) := by
  obtain ⟨w, hw, hobj⟩ := h
  obtain ⟨texts, htexts, hsay⟩ := hargs
  have hmem : s.nameText name ∈ leaves := hleaves List.mem_cons_self
  obtain ⟨hid, hleaf, -⟩ := Says.name hname hmem
  have hcall := ((hobj.within (Nat.le_refl _)).attr hleaf hmem).apply hsay
  by_cases hself : obj = .self
  · rcases nodePath?_cases hname hrefers with hnone | ⟨index, path, rfl, hc, hget, hshort⟩
    · have hpath : s.shortPath? name args = none := by
        simp [Scope.shortPath?, hnone, Except.toOption]
      refine ⟨.atom (w.within atomic ++ "." ++ s.nameText name ++ "(" ++ commaList texts ++ ")"),
        ?_, ?_⟩
      · simp only [Scope.write, if_pos hself, hnone, hw, hid, htexts, bind, Except.bind]
        rfl
      · simp only [Scope.phrase, hpath, Option.isSome_none, Bool.and_false]
        exact hcall
    · refine ⟨.atom (shortPath path), ?_, ?_⟩
      · simp only [Scope.write, if_pos hself, hshort, bind, Except.bind]
        rfl
      · have hpath : s.shortPath? name [.const index] = some (shortPath path) := by
          simp [Scope.shortPath?, hshort, Except.toOption]
        simp only [Scope.phrase, hpath, hself, decide_true, Option.isSome_some, Bool.and_true]
        exact Says.short hget hc (hleaves (by simp [hpath]))
  · refine ⟨.atom (w.within atomic ++ "." ++ s.nameText name ++ "(" ++ commaList texts ++ ")"),
      ?_, ?_⟩
    · simp only [Scope.write, if_neg hself, hw, hid, htexts, bind, pure, Except.pure, Except.bind]
    · simp only [Scope.phrase, hself, decide_false, Bool.false_and]
      exact hcall

theorem call (hargs : s.WritesAll leaves args) (hrefers : ∀ e ∈ args, s.Refers e)
    (hname : s.IsName name) (hleaves : s.nameText name :: (s.shortPath? name args).toList ⊆ leaves) :
    s.Writes leaves (.group (.call name) args) := by
  obtain ⟨texts, htexts, hsay⟩ := hargs
  obtain ⟨hid, hleaf, hcallee⟩ := Says.name hname (hleaves List.mem_cons_self)
  rcases nodePath?_cases hname hrefers with hnone | ⟨index, path, rfl, hc, hget, hshort⟩
  · refine ⟨.atom _, by simp only [Scope.write, hnone, hid, htexts, bind, Except.bind]; rfl, ?_⟩
    rw [Scope.phrase]
    exact hcallee.apply hsay
  · refine ⟨.atom _, by simp only [Scope.write, hshort, bind, Except.bind]; rfl, ?_⟩
    rw [Scope.phrase]
    have hpath : s.shortPath? name [.const index] = some (shortPath path) := by
      simp [Scope.shortPath?, hshort, Except.toOption]
    exact Says.short hget hc (hleaves (by simp [hpath]))

theorem builtin {index : Nat} (hargs : s.WritesAll leaves args)
    (hrefers : s.Refers (.group (.builtin index) args)) (hmem : s.builtinText index ∈ leaves) :
    s.Writes leaves (.group (.builtin index) args) := by
  obtain ⟨texts, htexts, hsay⟩ := hargs
  refine ⟨.atom _, by simp only [Scope.write, htexts, bind, Except.bind]; rfl, ?_⟩
  rw [Scope.phrase]
  exact (Says.leaf (.of_isPlain (isPlain_builtinText hrefers)) hmem).apply hsay

theorem array (h : s.WritesAll leaves items) : s.Writes leaves (.group .array items) := by
  obtain ⟨texts, htexts, hsay⟩ := h
  refine ⟨.atom _, by simp only [Scope.write, htexts, bind, Except.bind]; rfl, ?_⟩
  rw [Scope.phrase]
  exact .array hsay

theorem dictionary (h : s.WritesAll leaves items) (heven : 2 ∣ items.length) :
    s.Writes leaves (.group .dictionary items) := by
  obtain ⟨texts, htexts, hsay⟩ := h
  refine ⟨.atom _, by simp only [Scope.write, htexts, bind, Except.bind]; rfl, ?_⟩
  rw [Scope.phrase]
  have hlength : texts.length = items.length := by
    rw [hsay.length_eq, phrases_length]
  exact .dictionary hsay (hlength ▸ heven)

theorem yield (hargs : s.WritesAll leaves args) (hmem : "yield" ∈ leaves) :
    s.Writes leaves (.group .yield args) := by
  obtain ⟨texts, htexts, hsay⟩ := hargs
  refine ⟨.atom _, by simp only [Scope.write, htexts, bind, Except.bind]; rfl, ?_⟩
  rw [Scope.phrase]
  have hcallee : Says leaves "yield" (.leaf "yield") atomic :=
    .leaf (isLeaf_of_mem (by simp [fixedLeaves])) hmem
  exact hcallee.apply hsay

end Scope.Writes

mutual

theorem writes_of_covers {s : Scope} {leaves : List String} : ∀ e, s.Covers leaves e →
    s.Writes leaves e
  | .const _, h => .const h.here.1 h.here.2
  | .bool b, h => .bool b (h.leaf (by simp [Scope.ownLeaves]))
  | .slot _, h => .slot h.here.1 (h.leaf (by simp [Scope.ownLeaves]))
  | .self, h => .self (h.leaf (by simp [Scope.ownLeaves]))
  | .member _, h => .member h.here.1 (h.leaf (by simp [Scope.ownLeaves]))
  | .global _, h => .global h.here.1 (h.leaf (by simp [Scope.ownLeaves]))
  | .attr obj _, h =>
    .attr (writes_of_covers obj (h.child (by simp [Expr.children]))) h.here.1
      (h.leaf (by simp [Scope.ownLeaves]))
  | .index obj key, h =>
    .index (writes_of_covers obj (h.child (by simp [Expr.children])))
      (writes_of_covers key (h.child (by simp [Expr.children])))
  | .binary op left right, h =>
    .binary op (writes_of_covers left (h.child (by simp [Expr.children])))
      (writes_of_covers right (h.child (by simp [Expr.children])))
  | .unary op operand, h =>
    .unary op (writes_of_covers operand (h.child (by simp [Expr.children])))
  | .cast value _, h =>
    .cast (writes_of_covers value (h.child (by simp [Expr.children]))) h.here.1
      (h.leaf (by simp [Scope.ownLeaves]))
  | .method obj _ args, h =>
    .method (writes_of_covers obj (h.child (by simp [Expr.children])))
      (writesAll_of_covers args fun e he => h.child (by simp [Expr.children, he]))
      (fun e he => (h.child (by simp [Expr.children, he])).here.1) h.here.1 h.here.2
  | .group (.call _) args, h =>
    .call (writesAll_of_covers args fun e he => h.child he) (fun e he => (h.child he).here.1)
      h.here.1 h.here.2
  | .group (.builtin _) args, h =>
    .builtin (writesAll_of_covers args fun e he => h.child he) h.here.1
      (h.leaf (by simp [Scope.ownLeaves]))
  | .group .array items, h => .array (writesAll_of_covers items fun e he => h.child he)
  | .group .dictionary items, h =>
    .dictionary (writesAll_of_covers items fun e he => h.child he) h.here.1
  | .group .yield args, h =>
    .yield (writesAll_of_covers args fun e he => h.child he) (h.leaf (by simp [Scope.ownLeaves]))

theorem writesAll_of_covers {s : Scope} {leaves : List String} : ∀ es,
    (∀ e ∈ es, s.Covers leaves e) → s.WritesAll leaves es
  | [], _ => ⟨[], rfl, .nil⟩
  | e :: es, h => by
    obtain ⟨w, hw, he⟩ := writes_of_covers e (h e List.mem_cons_self)
    obtain ⟨texts, htexts, hes⟩ := writesAll_of_covers es fun e he => h e (List.mem_cons_of_mem _ he)
    refine ⟨w.text :: texts, by simp only [Scope.writeAll, hw, htexts, bind, Except.bind]; rfl, ?_⟩
    exact .cons (he.mono (Nat.zero_le _)) hes

end

/-- An expression whose names are plain is written with the texts of its leaves. -/
theorem writes_of_named {s : Scope} {e : Expr} (h : s.Named e) : s.Writes (s.leaves e) e :=
  writes_of_covers e fun part hpart =>
    ⟨h part hpart, fun _ ht => List.mem_flatMap.mpr ⟨part, hpart, ht⟩⟩

theorem exists_expr_of_named {s : Scope} {e : Expr} (h : s.Named e) :
    ∃ text, s.expr e = .ok text := by
  obtain ⟨w, hw, -⟩ := writes_of_named h
  exact ⟨w.text, by rw [Scope.expr, hw]; rfl⟩

/-- The text of an expression whose names are plain is tokens that read back as the expression: its
signs and the texts of its leaves. -/
theorem expr_reads_back {s : Scope} {e : Expr} (h : s.Named e) :
    ∃ text, s.expr e = .ok text ∧ ∃ ts, Spells ts text.toList ∧ ts ⊆ reserved ++ s.leaves e ∧
      Phrase.ofTokens? ts = some (s.phrase e) := by
  obtain ⟨w, hw, ts, hspells, hopens, hts⟩ := writes_of_named h
  exact ⟨w.text, by rw [Scope.expr, hw]; rfl, ts, hspells, hts, hopens.ofTokens?⟩

/-- A scope with two locals and a few constants. -/
def sampleScope : Scope where
  dialect := Registry.oldest
  pool := #[.string "size", .int (-3)]
  functions := #[]
  names := { names := #["a", "b"], arguments := 2 }

/-- A difference taken from a difference, on the right, and an attribute of a number below zero. -/
def sampleExpr : Expr :=
  .binary .sub (.slot 0) (.binary .sub (.slot 1) (.attr (.const 1) 0))

theorem sampleExpr_reads_back :
    sampleScope.Named sampleExpr ∧
      ∃ text, sampleScope.expr sampleExpr = .ok text ∧ ∃ ts, Spells ts text.toList ∧
        ts ⊆ reserved ++ sampleScope.leaves sampleExpr ∧
        Phrase.ofTokens? ts = some (sampleScope.phrase sampleExpr) := by
  have hnamed : sampleScope.Named sampleExpr := by
    simp only [Scope.Named, sampleExpr, Expr.walk, List.cons_append, List.nil_append,
      List.forall_mem_cons, Scope.Refers, Scope.IsName]
    exact ⟨trivial, by decide, trivial, by decide, ⟨"size", rfl, by decide⟩,
      ⟨.int (-3), rfl, trivial⟩, by simp⟩
  exact ⟨hnamed, expr_reads_back hnamed⟩

end Unscript.Source
