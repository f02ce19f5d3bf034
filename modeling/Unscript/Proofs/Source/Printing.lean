import Unscript.Proofs.Outcome
import Unscript.Proofs.Source.Meaning

/-!
# Names in texts

The texts that are written of expressions are made of names, which are written as they are, and of
signs and literals between them, which never hold a line break. So a text has more than one line only
where a name has. What stands on the last line of such a name is decided by the sign that follows it,
or, where the name ends the text, by whatever is written behind.

* `Source.physicalLines`, `Source.isComment`: what a reader of a text takes for a line, and for a
  comment.
* `Source.Contained`: a text that stays in the comment in which it stands.
* `Source.Prints`: the names that a text is made of, and the one that it ends with.
* `Source.Scope.printed`, `Source.Scope.lastName`: these for expressions.

Results:
* `Source.contained_append_sealed`: a sign ends what a name can do to the lines of a text.
* `Source.Prints.append`, `Source.HasNames.commaList`: texts are put together from others.
* `Source.Scope.tells`: what is written of an expression is made of the names that it prints.
-/

namespace Unscript.Source

/-! ## Lines of a text -/

/-- The lines of a text, which end at line breaks. -/
def physicalLines (text : String) : List (List Char) :=
  text.toList.splitOn '\n'

/-- Whether a line is a comment. -/
def isComment (line : List Char) : Bool :=
  (line.dropWhile Text.isBlank).head? == some '#'

/-- A text that stays in a comment: all its lines behind the first are comments themselves. -/
def Contained (text : String) : Prop :=
  ∀ line ∈ (physicalLines text).tail, isComment line = true

/-- A text without a line break is one line. -/
theorem physicalLines_of_unbroken {text : String} (h : '\n' ∉ text.toList) :
    physicalLines text = [text.toList] :=
  List.splitOn_eq_singleton h

theorem toString_unbroken (n : Nat) : '\n' ∉ (toString n).toList := by
  intro h
  have hdigit := isDigit_of_mem_toDigits (n := n) (c := '\n') (by simpa using h)
  cases hdigit

/-- Whether the line that begins here is a comment. -/
def StartsComment : List Char → Prop
  | [] => False
  | c :: cs => c ≠ '\n' ∧ (c = '#' ∨ Text.isBlank c = true ∧ StartsComment cs)

/-- Whether every line break is followed by a comment. -/
def Tame : List Char → Prop
  | [] => True
  | c :: cs => (c = '\n' → StartsComment cs) ∧ Tame cs

/-- The lines of a text, told from its characters: whether the first is a comment, and whether those
behind it are. -/
theorem splitOn_spec (cs : List Char) : ∃ first rest, cs.splitOn '\n' = first :: rest ∧
    (isComment first = true ↔ StartsComment cs) ∧
    ((∀ line ∈ rest, isComment line = true) ↔ Tame cs) := by
  induction cs with
  | nil => exact ⟨[], [], rfl, iff_of_false nofun id, by simp [Tame]⟩
  | cons c cs ih =>
    obtain ⟨first, rest, hsplit, hfirst, hrest⟩ := ih
    unfold List.splitOn at hsplit ⊢
    rw [List.splitOnP_cons_eq_if_modifyHead, hsplit]
    by_cases hc : c = '\n'
    · subst hc
      refine ⟨[], first :: rest, rfl, by simp [StartsComment, isComment], ?_⟩
      rw [List.forall_mem_cons, hfirst, hrest]
      simp [Tame]
    · refine ⟨c :: first, rest, by simp [hc], ?_, by simp [Tame, hc, hrest]⟩
      unfold StartsComment
      rw [← hfirst]
      unfold isComment
      cases hblank : Text.isBlank c with
      | true =>
        have hsign : c ≠ '#' := by
          rintro rfl
          cases hblank
        simp [hblank, hc, hsign]
      | false => simp [hblank, hc]

theorem contained_iff {text : String} : Contained text ↔ Tame text.toList := by
  obtain ⟨first, rest, hsplit, -, hrest⟩ := splitOn_spec text.toList
  unfold Contained physicalLines
  rw [hsplit]
  exact hrest

/-- A comment behind blanks opens its line. -/
theorem startsComment_of_blanks {blanks rest : List Char}
    (h : ∀ c ∈ blanks, Text.isBlank c = true ∧ c ≠ '\n') :
    StartsComment (blanks ++ '#' :: rest) := by
  induction blanks with
  | nil => exact ⟨by decide, .inl rfl⟩
  | cons c blanks ih =>
    obtain ⟨hc, hblanks⟩ := List.forall_mem_cons.mp h
    exact ⟨hc.2, .inr ⟨hc.1, ih hblanks⟩⟩

theorem isBlank_of_opensLeaf {c : Char} (h : opensLeaf c = true) :
    Text.isBlank c = false ∧ c ≠ '#' := by
  have hrange : 0x22 ≤ c.toNat ∧ c.toNat ≤ 0x7a ∧ c.toNat ≠ 0x23 := by
    simp only [opensLeaf, Bool.or_eq_true, beq_iff_eq] at h
    rcases h with ((hstarts | hdigit) | rfl) | rfl
    · rcases bounds_of_startsIdentifier hstarts with hupper | hlower | rfl
      · omega
      · omega
      · decide
    · have hfigure : 48 ≤ c.toNat ∧ c.toNat ≤ 57 := Char.isDigit_iff_toNat.mp hdigit
      omega
    · decide
    · decide
  refine ⟨?_, ?_⟩
  · simp only [Text.isBlank, Bool.or_eq_false_iff, Bool.and_eq_false_iff, decide_eq_false_iff_not,
      beq_eq_false_iff_ne]
    omega
  · rintro rfl
    exact hrange.2.2 rfl

/-- All lines of a text are comments if the first is, and the text stays in it. -/
theorem forall_isComment_iff {text : String} (h : StartsComment text.toList) :
    (∀ line ∈ physicalLines text, isComment line = true) ↔ Contained text := by
  obtain ⟨first, rest, hsplit, hfirst, -⟩ := splitOn_spec text.toList
  unfold Contained physicalLines
  rw [hsplit, List.forall_mem_cons, hfirst]
  exact and_iff_right h

/-! ## Signs -/

section Signs

variable {cs name sign rest : List Char}

theorem tame_append_unbroken (h : '\n' ∉ cs) : Tame (cs ++ rest) ↔ Tame rest := by
  induction cs with
  | nil => exact Iff.rfl
  | cons c cs ih =>
    obtain ⟨hc, hcs⟩ := not_or.mp (mt List.mem_cons.mpr h)
    rw [List.cons_append, Tame, ih hcs]
    exact and_iff_right fun hbreak => absurd hbreak.symm hc

/-- Characters that end the part of a name in a line: no line break, and something else than a comment
begins with them. -/
def Sealing (cs : List Char) : Prop :=
  '\n' ∉ cs ∧ ((cs.dropWhile Text.isBlank).head?.any (· != '#')) = true

instance (cs : List Char) : Decidable (Sealing cs) :=
  inferInstanceAs (Decidable (_ ∧ _))

theorem Sealing.append {more : List Char} (h : Sealing cs) (hmore : '\n' ∉ more) :
    Sealing (cs ++ more) := by
  obtain ⟨hunbroken, hfirst⟩ := h
  refine ⟨by simp [hunbroken, hmore], ?_⟩
  cases hdrop : cs.dropWhile Text.isBlank with
  | nil =>
    rw [hdrop] at hfirst
    cases hfirst
  | cons c rest =>
    rw [hdrop] at hfirst
    rw [List.dropWhile_append, hdrop]
    exact hfirst

theorem not_startsComment_of_sealing (h : Sealing sign) : ¬ StartsComment (sign ++ rest) := by
  obtain ⟨-, hfirst⟩ := h
  induction sign with
  | nil => cases hfirst
  | cons c cs ih =>
    rintro ⟨-, rfl | ⟨hblank, hstarts⟩⟩
    · rw [List.dropWhile_cons_of_neg (by decide)] at hfirst
      cases hfirst
    · rw [List.dropWhile_cons_of_pos hblank] at hfirst
      exact ih hfirst hstarts

theorem startsComment_append_sealed (h : Sealing sign) :
    StartsComment (name ++ (sign ++ rest)) ↔ StartsComment name := by
  induction name with
  | nil => exact iff_of_false (fun hstarts => not_startsComment_of_sealing h hstarts) id
  | cons c name ih => rw [List.cons_append, StartsComment, StartsComment, ih]

theorem tame_append_sealed (h : Sealing sign) :
    Tame (name ++ (sign ++ rest)) ↔ Tame name ∧ Tame rest := by
  induction name with
  | nil => exact (tame_append_unbroken h.1).trans (and_iff_right trivial).symm
  | cons c name ih => rw [List.cons_append, Tame, Tame, ih, startsComment_append_sealed h, and_assoc]

end Signs

theorem contained_append_unbroken {text more : String} (h : '\n' ∉ text.toList) :
    Contained (text ++ more) ↔ Contained more := by
  rw [contained_iff, contained_iff, String.toList_append, tame_append_unbroken h]

/-- **A sign behind a name** ends what the name can do: whether it stays in a comment does not depend
on what follows. -/
theorem contained_append_sealed {name sign more : String} (h : Sealing sign.toList) :
    Contained (name ++ (sign ++ more)) ↔ Contained name ∧ Contained more := by
  rw [contained_iff, contained_iff, contained_iff, String.toList_append, String.toList_append,
    tame_append_sealed h]

/-- The name at the end of a text, if there is one. -/
theorem contained_getD (last : Option String) :
    Contained (last.getD "") ↔ ∀ n ∈ last.toList, Contained n := by
  cases last with
  | none => exact iff_of_true (contained_iff.mpr trivial) nofun
  | some n => simp

/-! ## Texts made of names -/

/-- A text that is made of names and of signs between them, and of the name at its end if it ends with
one: it is broken only inside a name, and it stays in a comment, with something behind it, just when
its names do, the last with that behind it. -/
structure Prints (names : List String) (last : Option String) (text : String) : Prop where
  breaks : '\n' ∈ text.toList → ∃ n ∈ names, '\n' ∈ n.toList
  contained : ∃ inner, names = inner ++ last.toList ∧ ∀ more,
    Contained (text ++ more) ↔ (∀ n ∈ inner, Contained n) ∧ Contained (last.getD "" ++ more)

/-- A text that is made of names, whether it ends with one or not. -/
def HasNames (names : List String) (text : String) : Prop :=
  ∃ last, Prints names last text

/-- The names of keys and values in turn as those of the items of a dictionary. -/
def itemNames : List (List String) → List (List String)
  | key :: value :: rest => (key ++ value) :: itemNames rest
  | _ => []

/-- The names of a text that a remark follows: if the text ends with a name, the remark stands behind
it. -/
def remarkedNames (names : List String) (last : Option String) (remark : String) : List String :=
  match last with
  | some n => names.dropLast ++ [n ++ remark]
  | none => names

namespace Prints

variable {names names' : List String} {last last' : Option String} {text text' fixed : String}

theorem sign (h : '\n' ∉ text.toList) : Prints [] none text := by
  refine ⟨fun hbreak => absurd hbreak h, [], rfl, fun more => ?_⟩
  rw [Option.getD_none, String.empty_append, contained_append_unbroken h]
  exact (and_iff_right nofun).symm

theorem name (text : String) : Prints [text] (some text) text :=
  ⟨fun hbreak => ⟨text, List.mem_singleton_self _, hbreak⟩, [], rfl,
    fun _ => (and_iff_right nofun).symm⟩

/-- A text behind one that does not end with a name. -/
theorem append (h : Prints names none text) (h' : Prints names' last' text') :
    Prints (names ++ names') last' (text ++ text') := by
  obtain ⟨inner, hnames, hcontained⟩ := h.contained
  obtain ⟨inner', hnames', hcontained'⟩ := h'.contained
  have hempty (more : String) : Contained (Option.getD none "" ++ more) ↔ Contained more := by
    rw [Option.getD_none, String.empty_append]
  refine ⟨fun hbreak => ?_, inner ++ inner', ?_, fun more => ?_⟩
  · rw [String.toList_append, List.mem_append] at hbreak
    rcases hbreak with hbreak | hbreak
    · obtain ⟨n, hn, hbroken⟩ := h.breaks hbreak
      exact ⟨n, List.mem_append_left _ hn, hbroken⟩
    · obtain ⟨n, hn, hbroken⟩ := h'.breaks hbreak
      exact ⟨n, List.mem_append_right _ hn, hbroken⟩
  · rw [hnames, hnames', Option.toList_none, List.append_nil, List.append_assoc]
  · rw [String.append_assoc, hcontained, hempty, hcontained', List.forall_mem_append, and_assoc]

theorem after (h : Prints names last text) (hfixed : '\n' ∉ fixed.toList) :
    Prints names last (fixed ++ text) :=
  (sign hfixed).append h

/-- More of a text that does not end with a name. -/
theorem more (h : Prints names none text) (hfixed : '\n' ∉ fixed.toList) :
    Prints names none (text ++ fixed) := by
  simpa using h.append (sign hfixed)

/-- A sign behind a text ends its last name. -/
theorem before (h : Prints names last text) (hfixed : Sealing fixed.toList) :
    Prints names none (text ++ fixed) := by
  obtain ⟨inner, rfl, hcontained⟩ := h.contained
  refine ⟨fun hbreak => ?_, inner ++ last.toList, (List.append_nil _).symm, fun more => ?_⟩
  · rw [String.toList_append, List.mem_append] at hbreak
    exact h.breaks (hbreak.resolve_right hfixed.1)
  · rw [String.append_assoc, hcontained, contained_append_sealed hfixed, contained_getD,
      Option.getD_none, String.empty_append, List.forall_mem_append, and_assoc]

/-- A remark behind a text stands behind the name at its end. -/
theorem remarked (h : Prints names last text) (hfixed : '\n' ∉ fixed.toList) :
    HasNames (remarkedNames names last fixed) (text ++ fixed) := by
  unfold remarkedNames
  cases last with
  | none => exact ⟨none, h.more hfixed⟩
  | some n =>
    obtain ⟨inner, rfl, hcontained⟩ := h.contained
    refine ⟨some (n ++ fixed), fun hbreak => ?_, inner, ?_, fun more => ?_⟩
    · rw [String.toList_append, List.mem_append] at hbreak
      obtain ⟨x, hx, hbroken⟩ := h.breaks (hbreak.resolve_right hfixed)
      rcases List.mem_append.mp hx with hx | hx
      · exact ⟨x, by simp [hx], hbroken⟩
      · obtain rfl := List.mem_singleton.mp hx
        exact ⟨x ++ fixed, by simp, by simp [hbroken]⟩
    · simp
    · rw [String.append_assoc, hcontained, Option.getD_some, Option.getD_some, String.append_assoc]

/-- A text stays in a comment just when its names do. -/
theorem contained_iff_forall (h : Prints names last text) :
    Contained text ↔ ∀ n ∈ names, Contained n := by
  obtain ⟨inner, rfl, hcontained⟩ := h.contained
  have hall := hcontained ""
  rw [String.append_empty, String.append_empty] at hall
  rw [hall, contained_getD, List.forall_mem_append]

theorem inPlace {w : Written} (h : Prints names last w.text) (needed : Nat) :
    Prints names (if w.strength < needed then none else last) (w.within needed) := by
  unfold Written.within
  split
  · exact (h.after (by decide)).before (by decide)
  · exact h

theorem prefixed (h : Prints names last text) (op : UnaryOp) :
    Prints names (if op != .not && beginsWithSign text then none else last)
      (Source.prefixed op text) := by
  have hsymbol : '\n' ∉ op.symbol.toList := by cases op <;> decide
  unfold Source.prefixed
  split
  · rw [String.append_assoc, String.append_assoc]
    exact ((h.before (by decide)).after (by decide)).after hsymbol
  · exact h.after hsymbol

/-- Names in a list of texts that end with signs. -/
theorem intercalate {namess : List (List String)} {texts : List String}
    (hfixed : '\n' ∉ fixed.toList) (h : List.Forall₂ (fun names => Prints names none) namess texts) :
    Prints namess.flatten none (fixed.intercalate texts) := by
  induction h with
  | nil => exact .sign (by simp)
  | @cons names text namess texts hhead htail ih =>
    rw [List.flatten_cons]
    cases texts with
    | nil =>
      cases htail
      simpa using hhead
    | cons next texts =>
      rw [String.intercalate_cons_cons, String.append_assoc]
      exact hhead.append (ih.after hfixed)

end Prints

namespace HasNames

variable {names names' : List String} {text fixed : String} {namess : List (List String)}
  {texts : List String}

/-- Names in a list of texts with a sign between them. -/
theorem intercalate (hfixed : Sealing fixed.toList) (h : List.Forall₂ HasNames namess texts) :
    HasNames namess.flatten (fixed.intercalate texts) := by
  induction h with
  | nil => exact ⟨none, .sign (by simp)⟩
  | @cons names text namess texts hhead htail ih =>
    rw [List.flatten_cons]
    cases texts with
    | nil =>
      cases htail
      simpa using hhead
    | cons next texts =>
      rw [String.intercalate_cons_cons]
      obtain ⟨last, hhead⟩ := hhead
      obtain ⟨last', ih⟩ := ih
      exact ⟨last', (hhead.before hfixed).append ih⟩

theorem commaList (h : List.Forall₂ HasNames namess texts) :
    HasNames namess.flatten (Source.commaList texts) :=
  intercalate (by decide) h

/-- The items of a dictionary are keys and values. -/
theorem dictionaryItems (h : List.Forall₂ HasNames namess texts) :
    List.Forall₂ HasNames (itemNames namess) (Source.dictionaryItems texts) := by
  induction texts using Source.dictionaryItems.induct generalizing namess with
  | case1 key value rest ih =>
    obtain _ | ⟨⟨_, hkey⟩, _ | ⟨⟨last, hvalue⟩, hrest⟩⟩ := h
    rw [itemNames, Source.dictionaryItems]
    exact .cons ⟨last, (hkey.before (by decide)).append hvalue⟩ (ih hrest)
  | case2 texts hshort =>
    match texts, h with
    | [], .nil => exact .nil
    | [_], .cons _ .nil => exact .nil
    | key :: value :: rest, _ => exact absurd rfl (hshort key value rest)

/-- A list of texts in brackets. -/
theorem enclosed (h : List.Forall₂ HasNames namess texts) {opening closing : String}
    (hopening : '\n' ∉ opening.toList) (hclosing : Sealing closing.toList) :
    Prints namess.flatten none (opening ++ Source.commaList texts ++ closing) := by
  obtain ⟨_, hlist⟩ := commaList h
  exact (hlist.after hopening).before hclosing

end HasNames

/-- Arguments in parentheses behind what is called. -/
theorem Prints.apply {names : List String} {last : Option String} {text : String}
    (h : Prints names last text) {namess : List (List String)} {texts : List String}
    (hargs : List.Forall₂ HasNames namess texts) :
    Prints (names ++ namess.flatten) none (text ++ "(" ++ Source.commaList texts ++ ")") := by
  obtain ⟨_, hlist⟩ := HasNames.commaList hargs
  exact ((h.before (by decide)).append hlist).before (by decide)

/-! ## Names in expressions -/

namespace Scope

variable (s : Scope)

/-- The name that a constant prints. Texts are escaped. -/
def constantNames : Constant → List String
  | .subscript i => [s.functions[i]?.getD s!"func_{i}"]
  | _ => []

mutual

/-- The names that an expression prints, in order. -/
def printed : Expr → List String
  | .const index => ((s.constant index).toOption.map s.constantNames).getD []
  | .bool _ | .self => []
  | .slot slot => [s.names.name slot]
  | .member name | .global name => [s.nameText name]
  | .attr obj name => printed obj ++ [s.nameText name]
  | .index obj key => printed obj ++ printed key
  | .binary _ left right => printed left ++ printed right
  | .unary _ operand => printed operand
  | .cast value name => printed value ++ [s.nameText name]
  | .method obj name args =>
    match if obj = .self then s.shortPath? name args else none with
    | some path => [path]
    | none => printed obj ++ [s.nameText name] ++ (printedAll args).flatten
  | .group (.call name) args =>
    match s.shortPath? name args with
    | some path => [path]
    | none => [s.nameText name] ++ (printedAll args).flatten
  | .group (.builtin index) args => [s.builtinText index] ++ (printedAll args).flatten
  | .group .dictionary items => (itemNames (printedAll items)).flatten
  | .group .array items | .group .yield items => (printedAll items).flatten

/-- The names that expressions print, each for itself. -/
def printedAll : List Expr → List (List String)
  | [] => []
  | e :: es => printed e :: printedAll es

end

/-- Whether an operand is written in parentheses where a strength is needed. -/
def encloses (needed : Nat) (e : Expr) : Bool :=
  (s.write e).toOption.any fun w => w.strength < needed

/-- Whether the operand of an operator before it is written in parentheses, to keep signs apart. -/
def keepsApart (op : UnaryOp) (e : Expr) : Bool :=
  (s.write e).toOption.any fun w => op != .not && beginsWithSign (w.within op.strength)

/-- The name that an expression ends with, if its text ends with one. -/
def lastName : Expr → Option String
  | .const index => (s.printed (.const index)).head?
  | .slot slot => some (s.names.name slot)
  | .member name | .global name | .attr _ name | .cast _ name => some (s.nameText name)
  | .binary op _ right => if s.encloses (op.strength + 1) right then none else lastName right
  | .unary op operand =>
    if s.keepsApart op operand then none
    else if s.encloses op.strength operand then none
    else lastName operand
  | .method obj name args => if obj = .self then s.shortPath? name args else none
  | .group (.call name) args => s.shortPath? name args
  | _ => none

attribute [local simp] printed printedAll

variable {s}

theorem nameText_eq {index : Nat} {text : String} (h : s.identifier index = .ok text) :
    s.nameText index = text := by
  simp [nameText, h, Except.toOption]

theorem shortPath?_eq {name : Nat} {args : List Expr} {path : Option String}
    (h : s.nodePath? name args = .ok path) : s.shortPath? name args = path := by
  simp [shortPath?, h, Except.toOption]

theorem encloses_eq {needed : Nat} {e : Expr} {w : Written} (h : s.write e = .ok w) :
    s.encloses needed e = decide (w.strength < needed) := by
  simp [encloses, h, Except.toOption]

theorem keepsApart_eq {op : UnaryOp} {e : Expr} {w : Written} (h : s.write e = .ok w) :
    s.keepsApart op e = (op != .not && beginsWithSign (w.within op.strength)) := by
  simp [keepsApart, h, Except.toOption]

theorem prints_literal {c : Constant} {text : String} (h : s.literal c = .ok text) :
    Prints (s.constantNames c) (s.constantNames c).head? text := by
  have hsign (hw : s.Writable c) : Prints [] none text := by
    obtain ⟨negative, cs, hc, hleaf⟩ := isLeaf_literal hw
    cases h.symm.trans hc
    have hunbroken := hleaf.unbroken
    rw [String.toList_ofList] at hunbroken
    refine .sign ?_
    cases negative <;> simp [minus, hunbroken]
  cases c with
  | subscript i =>
    cases h
    exact .name _
  | foreign kind => cases h
  | _ => exact hsign trivial

/-- What is written of an expression is made of the names that it prints. -/
def Tells (s : Scope) (e : Expr) : Prop :=
  ∀ w, s.write e = .ok w → Prints (s.printed e) (s.lastName e) w.text

/-- So is what is written of expressions. -/
def TellsAll (s : Scope) (es : List Expr) : Prop :=
  ∀ texts, s.writeAll es = .ok texts → List.Forall₂ HasNames (s.printedAll es) texts

namespace Tells

variable {e obj key left right value : Expr} {args items : List Expr} {name : Nat}

theorem const {index : Nat} : s.Tells (.const index) := by
  intro w h
  rw [write] at h
  obtain ⟨c, hc, h⟩ := Outcome.bind_eq_ok.mp h
  obtain ⟨text, htext, h⟩ := Outcome.bind_eq_ok.mp h
  cases h
  rw [lastName, printed, hc]
  exact prints_literal htext

theorem nameOf (name : Nat) (hwrite : s.write e = (do return .atom (← s.identifier name)))
    (hprinted : s.printed e = [s.nameText name]) (hlast : s.lastName e = some (s.nameText name)) :
    s.Tells e := by
  intro w h
  rw [hwrite] at h
  obtain ⟨text, htext, h⟩ := Outcome.bind_eq_ok.mp h
  cases h
  rw [hprinted, hlast, nameText_eq htext]
  exact .name text

theorem attr (hobj : s.Tells obj) : s.Tells (.attr obj name) := by
  intro w h
  rw [write] at h
  obtain ⟨v, hv, h⟩ := Outcome.bind_eq_ok.mp h
  obtain ⟨text, htext, h⟩ := Outcome.bind_eq_ok.mp h
  cases h
  rw [printed, lastName, nameText_eq htext]
  exact (((hobj v hv).inPlace atomic).before (by decide)).append (.name text)

theorem index (hobj : s.Tells obj) (hkey : s.Tells key) : s.Tells (.index obj key) := by
  intro w h
  rw [write] at h
  obtain ⟨v, hv, h⟩ := Outcome.bind_eq_ok.mp h
  obtain ⟨k, hk, h⟩ := Outcome.bind_eq_ok.mp h
  cases h
  rw [printed]
  exact ((((hobj v hv).inPlace atomic).before (by decide)).append (hkey k hk)).before (by decide)

theorem binary (op : BinaryOp) (hleft : s.Tells left) (hright : s.Tells right) :
    s.Tells (.binary op left right) := by
  intro w h
  rw [write] at h
  obtain ⟨l, hl, h⟩ := Outcome.bind_eq_ok.mp h
  obtain ⟨r, hr, h⟩ := Outcome.bind_eq_ok.mp h
  cases h
  have hsymbol : Sealing (" " ++ op.symbol ++ " ").toList := by cases op <;> decide
  have hboth := (((hleft l hl).inPlace op.strength).before hsymbol).append
    ((hright r hr).inPlace (op.strength + 1))
  rw [printed, lastName, encloses_eq hr]
  simpa [String.append_assoc] using hboth

theorem unary (op : UnaryOp) (h : s.Tells e) : s.Tells (.unary op e) := by
  intro w hw
  rw [write] at hw
  obtain ⟨v, hv, hw⟩ := Outcome.bind_eq_ok.mp hw
  cases hw
  rw [printed, lastName, encloses_eq hv, keepsApart_eq hv]
  simpa using ((h v hv).inPlace op.strength).prefixed op

theorem cast (h : s.Tells value) : s.Tells (.cast value name) := by
  intro w hw
  rw [write] at hw
  obtain ⟨v, hv, hw⟩ := Outcome.bind_eq_ok.mp hw
  obtain ⟨text, htext, hw⟩ := Outcome.bind_eq_ok.mp hw
  cases hw
  rw [printed, lastName, nameText_eq htext]
  exact (((h v hv).inPlace castStrength).before (by decide)).append (.name text)

theorem method (hobj : s.Tells obj) (hargs : s.TellsAll args) : s.Tells (.method obj name args) := by
  intro w h
  rw [write] at h
  obtain ⟨path, hpath, h⟩ := Outcome.bind_eq_ok.mp h
  have hshort : (if obj = .self then s.shortPath? name args else none) = path := by
    by_cases hself : obj = .self
    · rw [if_pos hself] at hpath ⊢
      exact shortPath?_eq hpath
    · rw [if_neg hself] at hpath ⊢
      exact Except.ok.inj hpath
  rw [printed, lastName, hshort]
  cases path with
  | some path =>
    cases h
    exact .name path
  | none =>
    obtain ⟨v, hv, h⟩ := Outcome.bind_eq_ok.mp h
    obtain ⟨text, htext, h⟩ := Outcome.bind_eq_ok.mp h
    obtain ⟨texts, htexts, h⟩ := Outcome.bind_eq_ok.mp h
    cases h
    rw [nameText_eq htext]
    exact ((((hobj v hv).inPlace atomic).before (by decide)).append (.name text)).apply
      (hargs texts htexts)

theorem call (hargs : s.TellsAll args) : s.Tells (.group (.call name) args) := by
  intro w h
  rw [write] at h
  obtain ⟨path, hpath, h⟩ := Outcome.bind_eq_ok.mp h
  rw [printed, lastName, shortPath?_eq hpath]
  cases path with
  | some path =>
    cases h
    exact .name path
  | none =>
    obtain ⟨text, htext, h⟩ := Outcome.bind_eq_ok.mp h
    obtain ⟨texts, htexts, h⟩ := Outcome.bind_eq_ok.mp h
    cases h
    rw [nameText_eq htext]
    exact (Prints.name text).apply (hargs texts htexts)

theorem builtin {index : Nat} (hargs : s.TellsAll args) : s.Tells (.group (.builtin index) args) := by
  intro w h
  rw [write] at h
  obtain ⟨texts, htexts, h⟩ := Outcome.bind_eq_ok.mp h
  cases h
  rw [printed]
  exact (Prints.name (s.builtinText index)).apply (hargs texts htexts)

theorem array (hitems : s.TellsAll items) : s.Tells (.group .array items) := by
  intro w h
  rw [write] at h
  obtain ⟨texts, htexts, h⟩ := Outcome.bind_eq_ok.mp h
  cases h
  rw [printed]
  exact HasNames.enclosed (hitems texts htexts) (by decide) (by decide)

theorem dictionary (hitems : s.TellsAll items) : s.Tells (.group .dictionary items) := by
  intro w h
  rw [write] at h
  obtain ⟨texts, htexts, h⟩ := Outcome.bind_eq_ok.mp h
  cases h
  rw [printed]
  exact HasNames.enclosed (HasNames.dictionaryItems (hitems texts htexts)) (by decide) (by decide)

theorem yield (hargs : s.TellsAll args) : s.Tells (.group .yield args) := by
  intro w h
  rw [write] at h
  obtain ⟨texts, htexts, h⟩ := Outcome.bind_eq_ok.mp h
  cases h
  rw [printed]
  exact HasNames.enclosed (hargs texts htexts) (by decide) (by decide)

end Tells

mutual

/-- **What is written of an expression** is made of the names that it prints. -/
theorem tells (s : Scope) : ∀ e, s.Tells e
  | .const _ => .const
  | .bool b => by
    intro w h
    rw [write_bool] at h
    cases h
    rw [printed]
    exact .sign (by cases b <;> decide)
  | .slot slot => by
    intro w h
    rw [write_slot] at h
    cases h
    rw [printed]
    exact .name _
  | .self => by
    intro w h
    rw [write_self] at h
    cases h
    rw [printed]
    exact .sign (by decide)
  | .member name => .nameOf name (by rw [write]) (by rw [printed]) (by rw [lastName])
  | .global name => .nameOf name (by rw [write]) (by rw [printed]) (by rw [lastName])
  | .attr obj _ => (tells s obj).attr
  | .index obj key => (tells s obj).index (tells s key)
  | .binary op left right => (tells s left).binary op (tells s right)
  | .unary op operand => (tells s operand).unary op
  | .cast value _ => (tells s value).cast
  | .method obj _ args => (tells s obj).method (tellsAll s args)
  | .group (.call _) args => .call (tellsAll s args)
  | .group (.builtin _) args => .builtin (tellsAll s args)
  | .group .array items => .array (tellsAll s items)
  | .group .dictionary items => .dictionary (tellsAll s items)
  | .group .yield args => .yield (tellsAll s args)

/-- What is written of expressions is made of the names that they print. -/
theorem tellsAll (s : Scope) : ∀ es, s.TellsAll es
  | [] => by
    intro texts h
    rw [writeAll] at h
    cases h
    rw [printedAll]
    exact .nil
  | e :: es => by
    intro texts h
    rw [writeAll] at h
    obtain ⟨w, hw, h⟩ := Outcome.bind_eq_ok.mp h
    obtain ⟨rest, hrest, h⟩ := Outcome.bind_eq_ok.mp h
    cases h
    rw [printedAll]
    exact .cons ⟨_, tells s e w hw⟩ (tellsAll s es rest hrest)

end

theorem write_of_expr {e : Expr} {text : String} (h : s.expr e = .ok text) :
    ∃ w, s.write e = .ok w ∧ w.text = text := by
  unfold expr at h
  cases hw : s.write e with
  | error e =>
    rw [hw] at h
    cases h
  | ok w =>
    rw [hw] at h
    exact ⟨w, rfl, Except.ok.inj h⟩

theorem prints_expr {e : Expr} {text : String} (h : s.expr e = .ok text) :
    Prints (s.printed e) (s.lastName e) text := by
  obtain ⟨w, hw, rfl⟩ := write_of_expr h
  exact tells s e w hw

end Scope

end Unscript.Source
