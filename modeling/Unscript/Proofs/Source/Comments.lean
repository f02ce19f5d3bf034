import Unscript.Proofs.Source.Lines
import Unscript.Proofs.Source.Printing
import Unscript.Proofs.Structuring.Origin
import Unscript.Proofs.Structuring.Reconstruction
import Unscript.Source.Unit

/-!
# Comments that stand for code

Code without structure is written as comments. A comment ends at a line break, and names are written
as they are: the lines of such code are comments just when every name that is printed in them stays in
the comment in which it stands.

* `Source.Writer.rawNames`: the names that a raw node prints.
* `Source.Remarks`: comments that are made of names.

Results:
* `Source.contained_trimEnd`: blanks at the end of an instruction make no difference.
* `Source.Writer.remarks_of_comments`: what is written of a raw node is made of its names.
* `Source.Writer.node_raw_comments`: what decides whether all lines of a raw node are comments.
-/

namespace Unscript.Source

/-! ## Texts without line breaks -/

theorem toDigits_unbroken (n : Nat) : '\n' ∉ Nat.toDigits 16 n := by
  have hdigit : ∀ n < 16, '\n' ≠ Nat.digitChar n := by decide
  induction n using Nat.strongRecOn with
  | ind n ih =>
    rw [Nat.toDigits_eq_if (by decide)]
    split
    · rename_i hlt
      exact mt List.mem_singleton.mp (hdigit n hlt)
    · rename_i hle
      have hless : n / 16 < n := Nat.div_lt_self (by omega) (by decide)
      rw [List.mem_append, not_or]
      exact ⟨ih _ hless, mt List.mem_singleton.mp (hdigit _ (Nat.mod_lt _ (by decide)))⟩

theorem hexPadded_unbroken (width n : Nat) : '\n' ∉ (Text.hexPadded width n).toList := by
  unfold Text.hexPadded Text.padLeft Text.hexNat
  simp [toDigits_unbroken]

theorem quotedChar_unbroken {quote : Char} (h : quote ≠ '\n') (c : Char) :
    '\n' ∉ Text.quotedChar quote c := by
  unfold Text.quotedChar
  split_ifs with h1 h2
  · have hne : c ≠ '\n' := by
      rintro rfl
      exact h1.elim (fun heq => h heq.symm) nofun
    simpa using hne.symm
  · decide
  · decide
  · decide
  · simpa using Ne.symm h2
  · unfold Text.escapedCode
    split_ifs <;> simp [hexPadded_unbroken]

theorem quoted_unbroken (text : String) : '\n' ∉ (Text.quoted text).toList := by
  have hquote : Text.quoteFor text.toList ≠ '\n' := by
    unfold Text.quoteFor
    split <;> decide
  unfold Text.quoted
  simp [quotedChar_unbroken hquote, hquote.symm]

theorem text_unbroken (d : Number.Double) : '\n' ∉ d.text.toList := by
  by_cases hnan : d.isNaN = true
  · unfold Number.Double.text Number.Double.textIn
    rw [if_pos hnan]
    decide
  by_cases hinf : d.isInfinite = true
  · unfold Number.Double.text Number.Double.textIn
    rw [if_neg hnan, if_pos hinf]
    cases d.isNegative <;> decide
  · obtain ⟨cs, hcs, htext⟩ := text_toList (Bool.eq_false_iff.mpr hnan) (Bool.eq_false_iff.mpr hinf)
    rw [htext, List.mem_append, not_or]
    refine ⟨by cases d.isNegative <;> decide, fun hbreak => ?_⟩
    cases hcs.figures _ hbreak

theorem constant_quoted_unbroken (c : Constant) : '\n' ∉ c.quoted.toList := by
  cases c with
  | nil => decide
  | foreign kind => exact (by decide : '\n' ∉ "None".toList)
  | bool b => cases b <;> decide
  | int n =>
    cases n with
    | ofNat n => exact toString_unbroken n
    | negSucc n =>
      show '\n' ∉ ("-" ++ toString (n + 1)).toList
      simpa using toString_unbroken (n + 1)
  | float d => exact text_unbroken d
  | string text => exact quoted_unbroken text
  | resource path => exact quoted_unbroken path
  | subscript i => exact toString_unbroken i

theorem commaList_unbroken {texts : List String} (h : ∀ t ∈ texts, '\n' ∉ t.toList) :
    '\n' ∉ (commaList texts).toList := by
  obtain ⟨_, hprints⟩ : HasNames (texts.map fun _ => []).flatten (commaList texts) := by
    refine .commaList ?_
    rw [List.forall₂_map_left_iff, List.forall₂_same]
    exact fun t ht => ⟨none, .sign (h t ht)⟩
  intro hbreak
  obtain ⟨n, hn, -⟩ := hprints.breaks hbreak
  simp at hn

/-! ## Blanks at the end -/

/-- Blanks at the end of a text are behind its last character that is none. -/
theorem stripEnd_append {cs rest : List Char} {c : Char} (hc : Text.isBlank c = false) :
    Text.stripEnd (cs ++ c :: rest) = cs ++ c :: Text.stripEnd rest := by
  unfold Text.stripEnd
  rw [List.reverse_append, List.reverse_cons, List.append_assoc, List.dropWhile_append]
  split
  · rename_i hnil
    rw [List.isEmpty_iff.mp hnil, List.singleton_append,
      List.dropWhile_cons_of_neg (by simp [hc])]
    simp
  · simp

/-- A text whose last line is not blank. -/
def Firm (text : String) : Prop :=
  ∃ before c behind, text.toList = before ++ c :: behind ∧ Text.isBlank c = false ∧ '\n' ∉ behind

namespace Firm

variable {text fixed : String}

/-- A line is not blank where one of its characters is not. -/
theorem of_unbroken {c : Char} (h : '\n' ∉ text.toList) (hc : c ∈ text.toList)
    (hblank : Text.isBlank c = false) : Firm text := by
  obtain ⟨before, behind, htext⟩ := List.append_of_mem hc
  rw [htext] at h
  exact ⟨before, c, behind, htext, hblank, by simp_all⟩

theorem after (h : Firm text) (fixed : String) : Firm (fixed ++ text) := by
  obtain ⟨before, c, behind, htext, hblank, hbehind⟩ := h
  exact ⟨fixed.toList ++ before, c, behind, by simp [htext], hblank, hbehind⟩

/-- A bracket at the end. -/
theorem bracket (text : String) : Firm (text ++ ")") :=
  ⟨text.toList, ')', [], by simp, by decide, List.not_mem_nil⟩

theorem intercalate (fixed : String) {texts : List String} (hne : texts ≠ [])
    (h : ∀ t ∈ texts, Firm t) : Firm (fixed.intercalate texts) := by
  induction texts with
  | nil => exact absurd rfl hne
  | cons t texts ih =>
    obtain ⟨ht, htexts⟩ := List.forall_mem_cons.mp h
    cases texts with
    | nil => simpa using ht
    | cons next texts =>
      rw [String.intercalate_cons_cons]
      exact (ih (List.cons_ne_nil _ _) htexts).after _

end Firm

theorem startsComment_append_firm {before behind : List Char} {c : Char} (hc : Text.isBlank c = false) :
    StartsComment (before ++ c :: behind) ↔ StartsComment (before ++ [c]) := by
  induction before with
  | nil => simp [StartsComment, hc]
  | cons x before ih => rw [List.cons_append, List.cons_append, StartsComment, StartsComment, ih]

/-- What is behind the last character that is no blank makes no difference on its line. -/
theorem tame_append_firm {before behind : List Char} {c : Char} (hc : Text.isBlank c = false)
    (hbehind : '\n' ∉ behind) : Tame (before ++ c :: behind) ↔ Tame (before ++ [c]) := by
  induction before with
  | nil =>
    have hunbroken : Tame behind := by
      rw [← List.append_nil behind, tame_append_unbroken hbehind]
      trivial
    have hbreak : c ≠ '\n' := by
      rintro rfl
      cases hc
    simp [Tame, hunbroken, hbreak]
  | cons x before ih =>
    rw [List.cons_append, List.cons_append, Tame, Tame, ih, startsComment_append_firm hc]

/-- Without the blanks at its end a text stays in a comment just when it does with them, if its last
line is not blank. -/
theorem contained_trimEnd {text : String} (h : Firm text) :
    Contained (Text.trimEnd text) ↔ Contained text := by
  obtain ⟨before, c, behind, htext, hblank, hbehind⟩ := h
  have hstripped : '\n' ∉ Text.stripEnd behind := by
    unfold Text.stripEnd
    rw [List.mem_reverse]
    exact fun hbreak => hbehind (List.mem_reverse.mp ((List.dropWhile_sublist _).subset hbreak))
  unfold Text.trimEnd
  rw [contained_iff, contained_iff, String.toList_ofList, htext, stripEnd_append hblank,
    tame_append_firm hblank hstripped, tame_append_firm hblank hbehind]

/-! ## Instructions -/

/-- The names that an operand prints. -/
def operandNames (d : Dialect) (pool : List Constant) (kind : OperandKind) (value : Nat) :
    List String :=
  match kind, pool[value]? with
  | .constant, some (.foreign kind) => [kind]
  | .name, some c => [c.plain]
  | .builtin, _ => [(d.builtinName? value).getD "None"]
  | _, _ => []

theorem kindText_unbroken (k : ConstantKind) : '\n' ∉ k.text.toList := by
  cases k <;> decide

theorem prints_operandText (d : Dialect) (pool : List Constant) (kind : OperandKind) (value : Nat) :
    Prints (operandNames d pool kind value) none (operandText d pool kind value) := by
  have hvalue : '\n' ∉ (toString value).toList := toString_unbroken value
  have hopen : '\n' ∉ (toString value ++ " (").toList := by
    simpa using hvalue
  have hbracket (name : String) : Prints [name] none (toString value ++ " (" ++ name ++ ")") :=
    ((Prints.name name).after hopen).before (by decide)
  unfold operandText operandNames
  cases kind with
  | constant =>
    cases pool[value]? with
    | none => exact .sign hvalue
    | some c =>
      have hquoted := constant_quoted_unbroken c
      cases c with
      | foreign kind =>
        exact ((((Prints.name kind).after hopen).before (by decide)).more hquoted).more (by decide)
      | _ =>
        exact ((((Prints.sign hopen).more (kindText_unbroken _)).more (by decide)).more
          hquoted).more (by decide)
  | name =>
    cases pool[value]? with
    | none => exact .sign hvalue
    | some c => exact hbracket _
  | builtin => exact hbracket _
  | jump =>
    refine .sign ?_
    simpa using hexPadded_unbroken 4 value
  | slot =>
    refine .sign ?_
    show '\n' ∉ ("local" ++ toString value).toList
    simpa using hvalue
  | _ => exact .sign hvalue

/-- The last line of an operand has a figure or a bracket. -/
theorem firm_operandText (d : Dialect) (pool : List Constant) (kind : OperandKind) (value : Nat) :
    Firm (operandText d pool kind value) := by
  have hvalue : Firm (toString value) := by
    obtain ⟨c, cs, hc⟩ := List.exists_cons_of_ne_nil (Nat.toDigits_ne_nil (n := value) (b := 10))
    have hdigit : c.isDigit = true := isDigit_of_mem_toDigits (hc ▸ List.mem_cons_self)
    have hblank := (isBlank_of_opensLeaf (c := c) (by simp [opensLeaf, hdigit])).1
    exact Firm.of_unbroken (toString_unbroken value) (by simp [hc]) hblank
  unfold operandText
  cases kind with
  | constant =>
    cases pool[value]? with
    | none => exact hvalue
    | some c => exact Firm.bracket _
  | name =>
    cases pool[value]? with
    | none => exact hvalue
    | some c => exact Firm.bracket _
  | builtin => exact Firm.bracket _
  | jump =>
    refine Firm.of_unbroken (c := '>') ?_ (by simp) (by decide)
    simpa using hexPadded_unbroken 4 value
  | slot => exact hvalue.after "local"
  | _ => exact hvalue

namespace Writer

variable (w : Writer)

/-- The names that an instruction prints. -/
def instructionNames (i : Instruction) : List String :=
  (i.kinds.zip i.operands).flatMap fun x =>
    operandNames w.scope.dialect w.scope.pool.toList x.1 x.2

theorem prints_operandTexts (i : Instruction) :
    Prints (w.instructionNames i) none
      (i.operandTexts w.scope.dialect w.scope.pool.toList " ") := by
  unfold instructionNames Instruction.operandTexts
  rw [List.flatMap_def]
  refine Prints.intercalate (by decide) ?_
  rw [List.forall₂_map_left_iff, List.forall₂_map_right_iff, List.forall₂_same]
  exact fun x _ => prints_operandText _ _ x.1 x.2

theorem contained_instruction {i : Instruction} (h : '\n' ∉ i.mnemonic.toList) :
    Contained (w.instruction i) ↔ ∀ n ∈ w.instructionNames i, Contained n := by
  have hoffset : '\n' ∉ (Text.hexOffset i.offset).toList := by
    unfold Text.hexOffset
    simpa using hexPadded_unbroken 4 i.offset
  have hhead : '\n' ∉ ("# " ++ Text.hexOffset i.offset ++ " " ++ i.mnemonic ++ " ").toList := by
    simp [hoffset, h]
  have hfirm : Firm ("# " ++ Text.hexOffset i.offset ++ " " ++ i.mnemonic ++ " " ++
      i.operandTexts w.scope.dialect w.scope.pool.toList " ") := by
    unfold Instruction.operandTexts
    by_cases hnone : i.kinds.zip i.operands = []
    · rw [hnone, List.map_nil]
      exact Firm.of_unbroken (c := '#') (by simp [hoffset, h]) (by simp) (by decide)
    · refine (Firm.intercalate " " (by simpa using hnone) ?_).after _
      exact List.forall_mem_map.mpr fun x _ => firm_operandText _ _ x.1 x.2
  unfold instruction
  rw [contained_trimEnd hfirm]
  exact ((w.prints_operandTexts i).after hhead).contained_iff_forall

end Writer

/-! ## Comments -/

/-- A text that begins with the mark of a comment. -/
def Marked (text : String) : Prop :=
  text.toList.head? = some '#'

instance (text : String) : Decidable (Marked text) :=
  inferInstanceAs (Decidable (_ = _))

theorem Marked.append {text : String} (h : Marked text) (more : String) : Marked (text ++ more) := by
  unfold Marked at h ⊢
  rw [String.toList_append, List.head?_append, h]
  rfl

theorem marked_trimEnd (text : String) : Marked (Text.trimEnd ("# " ++ text)) := by
  have hstrip : Text.stripEnd ("# " ++ text).toList = '#' :: Text.stripEnd (' ' :: text.toList) := by
    rw [String.toList_append]
    exact @stripEnd_append [] (' ' :: text.toList) '#' (by decide)
  unfold Marked Text.trimEnd
  rw [String.toList_ofList, hstrip]
  rfl

theorem Writer.marked_instruction (w : Writer) (i : Instruction) : Marked (w.instruction i) := by
  unfold instruction
  dsimp only
  simp only [String.append_assoc]
  exact marked_trimEnd _

/-- Comments that are made of names: each begins with the mark of a comment, and all of them stay in
comments just when the names do. -/
structure Remarks (names texts : List String) : Prop where
  marked : ∀ t ∈ texts, Marked t
  contained : (∀ t ∈ texts, Contained t) ↔ ∀ n ∈ names, Contained n

namespace Remarks

variable {names names' texts texts' : List String} {text : String}

theorem nil : Remarks [] [] :=
  ⟨nofun, iff_of_true nofun nofun⟩

theorem append (h : Remarks names texts) (h' : Remarks names' texts') :
    Remarks (names ++ names') (texts ++ texts') := by
  refine ⟨List.forall_mem_append.mpr ⟨h.marked, h'.marked⟩, ?_⟩
  rw [List.forall_mem_append, List.forall_mem_append, h.contained, h'.contained]

/-- One comment in front of others. -/
theorem cons (h : Contained text ↔ ∀ n ∈ names, Contained n) (hmark : Marked text)
    (hrest : Remarks names' texts) : Remarks (names ++ names') (text :: texts) := by
  have hfirst : Remarks names [text] :=
    ⟨List.forall_mem_singleton.mpr hmark, by rw [List.forall_mem_singleton, h]⟩
  exact hfirst.append hrest

/-- A comment without names in front of others. -/
theorem sign (h : '\n' ∉ text.toList) (hmark : Marked text)
    (hrest : Remarks names texts) : Remarks names (text :: texts) :=
  cons (Prints.sign h).contained_iff_forall hmark hrest

end Remarks

namespace Scope

/-- The remark behind a value left on the stack. -/
def residueRemark : String :=
  "  " ++ marker ++ " value left on the stack"

/-- The names that a value left on the stack prints. The one at its end stands with the remark behind
it. -/
def residueNames (s : Scope) (e : Expr) : List String :=
  remarkedNames (s.printed e) (s.lastName e) residueRemark

/-- The names that a statement prints. -/
def stmtNames (s : Scope) : Stmt → List String
  | .assign target value _ _ => s.printed target ++ s.printed value
  | .expr e _ residue => if residue then s.residueNames e else s.printed e
  | .assert test _ => s.printed test
  | .breakpoint _ => []

end Scope

namespace Writer

variable {w : Writer}

theorem prints_statement {stmt : Stmt} {text : String} (h : w.statement stmt = .ok text) :
    HasNames (w.scope.stmtNames stmt) text := by
  cases stmt with
  | assign target value offset declares =>
    obtain ⟨t, ht, h⟩ := Outcome.bind_eq_ok.mp h
    obtain ⟨v, hv, h⟩ := Outcome.bind_eq_ok.mp h
    cases h
    have hvar : '\n' ∉ (if declares then "var " else "").toList := by cases declares <;> decide
    exact ⟨_, (((Scope.prints_expr ht).after hvar).before (by decide)).append
      (Scope.prints_expr hv)⟩
  | expr e offset residue =>
    obtain ⟨t, ht, h⟩ := Outcome.bind_eq_ok.mp h
    cases h
    cases residue with
    | false => exact ⟨_, Scope.prints_expr ht⟩
    | true =>
      have hremark : '\n' ∉ Scope.residueRemark.toList := by decide
      have hmarked := (Scope.prints_expr ht).remarked hremark
      rw [Scope.residueRemark, ← String.append_assoc, ← String.append_assoc] at hmarked
      exact hmarked
  | assert test offset =>
    obtain ⟨t, ht, h⟩ := Outcome.bind_eq_ok.mp h
    cases h
    exact ⟨none, ((Scope.prints_expr ht).after (by decide)).before (by decide)⟩
  | breakpoint offset =>
    cases h
    exact ⟨none, .sign (by decide)⟩

theorem labelName_unbroken (w : Writer) (id : Nat) : '\n' ∉ (w.labelName id).toList := by
  unfold labelName
  split
  · decide
  · show '\n' ∉ ("block_" ++ toString id).toList
    rw [String.toList_append, List.mem_append, not_or]
    exact ⟨by decide, toString_unbroken id⟩

/-- Comments without names. -/
theorem remarks_gotos (w : Writer) (ids : List Nat) :
    Remarks [] (ids.map fun id => "# goto " ++ w.labelName id) := by
  induction ids with
  | nil => exact .nil
  | cons id ids ih =>
    refine .sign ?_ (Marked.append (by decide) _) ih
    rw [String.toList_append, List.mem_append, not_or]
    exact ⟨by decide, w.labelName_unbroken id⟩

/-- Whether the comment about an ending has a value in it. -/
def showsValue : EndingKind → List Nat → Bool
  | .cond, [_, _] | .iterBegin, [_, _] | .iterNext, [_, _] | .ret, _ => true
  | _, _ => false

/-- A value that is shown in a comment, and the names that it is made of; one that is missing has
none. -/
def PrintsValue (names : List String) (value : Option String) : Prop :=
  (∀ text, value = some text → HasNames names text) ∧ (value = none → names = [])

theorem printsValue_of_mapM {e : Option Expr} {value : Option String}
    (h : e.mapM w.scope.expr = .ok value) :
    PrintsValue ((e.map w.scope.printed).getD []) value := by
  cases e with
  | none =>
    cases h
    exact ⟨nofun, fun _ => rfl⟩
  | some e =>
    obtain ⟨text, htext, h⟩ := Outcome.bind_eq_ok.mp h
    cases h
    refine ⟨?_, nofun⟩
    rintro _ ⟨⟩
    exact ⟨_, Scope.prints_expr htext⟩

/-- What stands for a value that may be missing. -/
theorem PrintsValue.getD {names : List String} {value : Option String} {before missing : String}
    (h : PrintsValue names value) (hbefore : '\n' ∉ before.toList)
    (hmissing : '\n' ∉ missing.toList) :
    HasNames names ((value.map (before ++ ·)).getD missing) := by
  cases value with
  | none =>
    rw [h.2 rfl]
    exact ⟨none, .sign hmissing⟩
  | some text =>
    obtain ⟨last, htext⟩ := h.1 text rfl
    exact ⟨last, htext.after hbefore⟩

/-- A comment with a value in it. -/
theorem PrintsValue.contained {names : List String} {value : Option String}
    {head before missing behind : String} (h : PrintsValue names value)
    (hhead : '\n' ∉ head.toList) (hbefore : '\n' ∉ before.toList)
    (hmissing : '\n' ∉ missing.toList) (hbehind : Sealing behind.toList) :
    Contained (head ++ (value.map (before ++ ·)).getD missing ++ behind) ↔
      ∀ n ∈ names, Contained n := by
  obtain ⟨_, hvalue⟩ := h.getD hbefore hmissing
  exact ((hvalue.after hhead).before hbehind).contained_iff_forall

/-- The comments about an ending. -/
theorem PrintsValue.remarks {r : RawNode} {value : Option String} {names : List String}
    (h : PrintsValue names value) :
    Remarks (if showsValue r.ending r.gotos then names else []) (w.rawEnding r value) := by
  have hlabel := w.labelName_unbroken
  have hgoto (id : Nat) : Remarks [] ["# goto " ++ w.labelName id] := remarks_gotos w [id]
  have hexhausted (id : Nat) : Remarks [] ["# exhausted: goto " ++ w.labelName id] := by
    refine .sign ?_ (Marked.append (by decide) _) .nil
    rw [String.toList_append, List.mem_append, not_or]
    exact ⟨by decide, hlabel id⟩
  -- What is behind a value begins with a colon.
  have hcolon (id : Nat) : Sealing (": goto " ++ w.labelName id).toList := by
    rw [String.toList_append]
    exact Sealing.append (by decide) (hlabel id)
  have htest (a : Nat) : Contained ("# if " ++ value.getD "None" ++ ": goto " ++ w.labelName a) ↔
      ∀ n ∈ names, Contained n := by
    have hvalue : (value.map ("" ++ ·)).getD "None" = value.getD "None" := by
      cases value <;> simp
    rw [String.append_assoc, ← hvalue]
    exact h.contained (by decide) (by decide) (by decide) (hcolon a)
  have hover (a : Nat) : Contained ("# next element" ++ (value.map (" over " ++ ·)).getD "" ++
      ": goto " ++ w.labelName a) ↔ ∀ n ∈ names, Contained n := by
    rw [String.append_assoc]
    exact h.contained (by decide) (by decide) (by decide) (hcolon a)
  unfold rawEnding
  generalize r.ending = ending
  generalize r.gotos = gotos
  dsimp only
  split
  · rename_i hshows
    rw [← List.append_nil names]
    split
    · rename_i a b
      exact Remarks.cons (htest a) (((Marked.append (by decide) _).append _).append _) (hgoto b)
    · rename_i a b
      exact Remarks.cons (hover a) (((Marked.append (by decide) _).append _).append _) (hexhausted b)
    · rename_i a b
      exact Remarks.cons (hover a) (((Marked.append (by decide) _).append _).append _) (hexhausted b)
    · obtain ⟨_, hvalue⟩ : HasNames names ((value.map (" " ++ ·)).getD "") :=
        h.getD (by decide) (by decide)
      exact Remarks.cons (hvalue.after (by decide)).contained_iff_forall
        (Marked.append (by decide) _) .nil
    · unfold showsValue at hshows
      split at hshows <;> simp_all
  · rename_i hshows
    split
    · exact absurd rfl hshows
    · exact absurd rfl hshows
    · exact absurd rfl hshows
    · exact absurd rfl hshows
    · exact remarks_gotos w _

/-- The names that a raw node prints: those of its instructions, or those of its statements and of its
value. -/
def rawNames (w : Writer) (r : RawNode) : List String :=
  match r.block, r.statements with
  | none, _ => []
  | some _, none => r.instructions.flatMap w.instructionNames
  | some _, some ss => ss.flatMap w.scope.stmtNames ++
      if showsValue r.ending r.gotos then (r.value.map w.scope.printed).getD [] else []

/-- Remarks are written as they are. -/
theorem texts_of_remarks {ts texts : List String}
    (h : (ts.map Content.remark).mapM w.contentText = .ok texts) : texts = ts := by
  have hall := Outcome.mapM_eq_ok.mp h
  rw [List.forall₂_map_left_iff] at hall
  refine (List.forall₂_eq_eq_eq ▸ hall.imp fun t text htext => ?_ : ts = texts).symm
  exact Except.ok.inj htext

theorem remarks_instructions {is : List Instruction}
    (h : ∀ i ∈ is, '\n' ∉ i.mnemonic.toList) :
    Remarks (is.flatMap w.instructionNames) (is.map w.instruction) := by
  induction is with
  | nil => exact .nil
  | cons i is ih =>
    obtain ⟨hi, his⟩ := List.forall_mem_cons.mp h
    exact .cons (w.contained_instruction hi) (w.marked_instruction i) (ih his)

theorem remarks_statements {ss : List Stmt} {texts : List String}
    (h : ss.mapM w.statement = .ok texts) :
    Remarks (ss.flatMap w.scope.stmtNames) (texts.map ("# " ++ ·)) := by
  induction Outcome.mapM_eq_ok.mp h with
  | nil => exact .nil
  | cons hstmt hrest ih =>
    obtain ⟨_, hprints⟩ := prints_statement hstmt
    exact .cons (hprints.after (by decide)).contained_iff_forall (Marked.append (by decide) _)
      (ih (Outcome.mapM_eq_ok.mpr hrest))

theorem commaList_labels_unbroken (w : Writer) (ids : List Nat) :
    '\n' ∉ (commaList (ids.map w.labelName)).toList :=
  commaList_unbroken (List.forall_mem_map.mpr fun id _ => w.labelName_unbroken id)

/-- **What is written of a raw node** is made of its names. -/
theorem remarks_of_comments {r : RawNode} {cs : List Content} {texts : List String}
    (hreason : '\n' ∉ r.reason.text.toList)
    (hmnemonic : ∀ i ∈ r.instructions, '\n' ∉ i.mnemonic.toList)
    (h : w.comments r = .ok cs) (htexts : cs.mapM w.contentText = .ok texts) :
    Remarks (w.rawNames r) texts := by
  have hlabel := w.labelName_unbroken
  have hhead (what name : String) (hwhat : '\n' ∉ what.toList) (hname : '\n' ∉ name.toList) :
      '\n' ∉ (marker ++ what ++ name ++ " (" ++ r.reason.text ++ ")").toList := by
    have hmarker : '\n' ∉ marker.toList := by decide
    simp only [String.toList_append, List.mem_append, not_or]
    exact ⟨⟨⟨⟨⟨hmarker, hwhat⟩, hname⟩, by decide⟩, hreason⟩, by decide⟩
  have hmarked (what name : String) : Marked (marker ++ what ++ name ++ " (" ++ r.reason.text ++ ")") :=
    ((((Marked.append (by decide) _).append _).append _).append _).append _
  unfold comments at h
  unfold rawNames
  dsimp only at h
  split at h
  · rename_i hblock
    cases h
    rw [hblock]
    obtain rfl : texts = [_] := texts_of_remarks htexts
    exact .sign (hhead _ _ (by decide) (w.commaList_labels_unbroken r.gotos)) (hmarked _ _) .nil
  · rename_i id hblock
    rw [hblock]
    -- A line with the reason and the label stand before the rest.
    have hrest {names rest : List String} (hremarks : Remarks names rest) {cs : List Content}
        (hcs : cs = [.remark (marker ++ " low-confidence " ++ w.labelName id ++ " (" ++
          r.reason.text ++ ")"), .label id] ++ rest.map .remark)
        (htexts : cs.mapM w.contentText = .ok texts) : Remarks names texts := by
      rw [hcs, List.cons_append, List.mapM_cons] at htexts
      obtain ⟨first, hfirst, htexts⟩ := Outcome.bind_eq_ok.mp htexts
      obtain ⟨others, hothers, htexts⟩ := Outcome.bind_eq_ok.mp htexts
      cases hfirst
      cases htexts
      rw [List.cons_append, List.mapM_cons] at hothers
      obtain ⟨label, hlabelled, hothers⟩ := Outcome.bind_eq_ok.mp hothers
      obtain ⟨more, hmore, hothers⟩ := Outcome.bind_eq_ok.mp hothers
      cases hlabelled
      cases hothers
      cases texts_of_remarks hmore
      refine .sign (hhead _ _ (by decide) (hlabel id)) (hmarked _ _) (.sign ?_ ?_ hremarks)
      · simp only [String.toList_append, List.mem_append, not_or]
        exact ⟨⟨by decide, hlabel id⟩, by decide⟩
      · exact (Marked.append (by decide) _).append _
    split at h
    · cases h
      rename_i hnone
      rw [hnone]
      refine hrest (remarks_instructions hmnemonic) ?_ htexts
      rw [List.map_map]
      rfl
    · rename_i ss hsome
      obtain ⟨written, hwritten, h⟩ := Outcome.bind_eq_ok.mp h
      obtain ⟨value, hvalue, h⟩ := Outcome.bind_eq_ok.mp h
      cases h
      rw [hsome]
      refine hrest ((remarks_statements hwritten).append (printsValue_of_mapM hvalue).remarks) rfl htexts

/-! ## Lines -/

/-- An indentation of blanks that stay on their line. -/
def Indents (w : Writer) : Prop :=
  ∀ c ∈ w.indent.toList, Text.isBlank c = true ∧ c ≠ '\n'

theorem pad_succ (w : Writer) (depth : Nat) : w.pad (depth + 1) = w.indent ++ w.pad depth := by
  unfold pad
  cases depth with
  | zero => simp
  | succ depth =>
    rw [List.replicate_succ, List.replicate_succ, String.intercalate_cons_cons]
    simp

theorem Indents.pad (h : w.Indents) (depth : Nat) :
    ∀ c ∈ (w.pad depth).toList, Text.isBlank c = true ∧ c ≠ '\n' := by
  induction depth with
  | zero => exact fun _ hc => nomatch hc
  | succ depth ih =>
    rw [pad_succ, String.toList_append]
    exact List.forall_mem_append.mpr ⟨h, ih⟩

/-- All lines of a remark are comments just when it stays in the first of them. -/
theorem isComment_render_iff (h : w.Indents) {l : Line} (hmark : Marked l.text) :
    (∀ line ∈ physicalLines (w.render l), isComment line = true) ↔ Contained l.text := by
  have hpad := h.pad l.depth
  obtain ⟨rest, hrest⟩ := List.head?_eq_some_iff.mp hmark
  have hstarts : StartsComment (w.render l).toList := by
    unfold render
    rw [String.toList_append, hrest]
    exact startsComment_of_blanks hpad
  have hunbroken : '\n' ∉ (w.pad l.depth).toList := fun hbreak => (hpad _ hbreak).2 rfl
  rw [forall_isComment_iff hstarts]
  unfold render
  exact contained_append_unbroken hunbroken

/-- A remark that is not broken is a comment. -/
theorem isComment_render (h : w.Indents) {l : Line} (hmark : Marked l.text)
    (hunbroken : '\n' ∉ l.text.toList) :
    ∀ line ∈ physicalLines (w.render l), isComment line = true :=
  (isComment_render_iff h hmark).mpr ((Prints.sign hunbroken).contained_iff_forall.mpr nofun)

/-- The texts of lines are those of what they say. -/
theorem texts_of_lines {cs : List Content} {ls : List Line} {d : Nat} (h : w.lines d cs = .ok ls) :
    cs.mapM w.contentText = .ok (ls.map (·.text)) := by
  rw [Outcome.mapM_eq_ok, List.forall₂_map_right_iff]
  exact (Outcome.mapM_eq_ok.mp h).imp fun _ _ hl => (line_ok hl).2.2

/-- What decides whether all lines of a raw node are comments, for a reason and operations that are
not broken. -/
theorem comments_iff {r : RawNode} {depth : Nat} {word : String} {lines : List Line}
    (hindent : w.Indents) (hreason : '\n' ∉ r.reason.text.toList)
    (hmnemonic : ∀ i ∈ r.instructions, '\n' ∉ i.mnemonic.toList)
    (h : w.node depth word (.raw r) = .ok lines) :
    (∀ l ∈ lines, ∀ line ∈ physicalLines (w.render l), isComment line = true) ↔
      ∀ n ∈ w.rawNames r, Contained n := by
  rw [node] at h
  obtain ⟨cs, hcs, h⟩ := Outcome.bind_eq_ok.mp h
  have hremarks := remarks_of_comments hreason hmnemonic hcs (texts_of_lines h)
  rw [← hremarks.contained, List.forall_mem_map]
  refine forall₂_congr fun l hl => isComment_render_iff hindent ?_
  exact hremarks.marked _ (List.mem_map_of_mem hl)

end Writer

/-! ## Raw nodes of decoded functions -/

section Functions

variable {d : Dialect} {payload : List UInt8} {bounds : Bounds} {f : Function}
  {options : StructureOptions} {length : Option Nat} {s : Structured} {r : RawNode} {w : Writer}

theorem reason_unbroken {reason : RawReason} (h : ∀ text, reason ≠ .other text) :
    '\n' ∉ reason.text.toList := by
  cases reason with
  | other text => exact absurd rfl (h text)
  | _ => decide

theorem mnemonic_unbroken (hd : d.Regular) (hf : f ∈ (Script.decode d payload bounds).functions)
    {i : Instruction} (hi : i ∈ f.instructions) : '\n' ∉ i.mnemonic.toList := by
  have hknown : ∀ op ∈ Registry.knownOperations, '\n' ∉ op.mnemonic.toList := by
    decide +kernel
  obtain ⟨locals, pool, hconforms⟩ := Script.conforms_of_mem hf hi
  obtain ⟨op, hop, hmnemonic, -⟩ := hconforms.operation
  rw [hmnemonic]
  exact hknown op (hd.known hop)

/-- The raw nodes of a decoded function have reasons and operations that are not broken. -/
theorem unbroken_of_mem_raws (hd : d.Registered)
    (hf : f ∈ (Script.decode d payload bounds).functions)
    (hs : (Structured.ofInstructions d options f.instructions length).value = .ok s)
    (hr : r ∈ Node.raws s.body) :
    '\n' ∉ r.reason.text.toList ∧ ∀ i ∈ r.instructions, '\n' ∉ i.mnemonic.toList := by
  obtain ⟨flow, hbuild, hkeeps⟩ := Structured.keeps_of_ofInstructions hs hr
  obtain ⟨starts, hcut⟩ := Structuring.exists_cut_of_build hbuild
  cases hkeeps with
  | block hreason _ =>
    exact ⟨reason_unbroken hreason, fun i hi =>
      mnemonic_unbroken hd.regular hf (hcut.mem_instructions hi)⟩
  | jump hreason _ => exact ⟨reason_unbroken hreason, fun _ hi => nomatch hi⟩

/-- **Code without structure stays in comments** just when its names do. All lines of what is written of
a raw node of a decoded function are comments if and only if, in every name that it prints, all lines
behind the first are comments themselves; a value left on the stack prints the name at its end with the
remark that stands behind it. So they are when no name holds a line break, and they are not when a name
ends with one that no remark follows, or when something else than a comment follows one in a name. -/
theorem node_raw_comments (hd : d.Registered) (hf : f ∈ (Script.decode d payload bounds).functions)
    (hs : (Structured.ofInstructions d options f.instructions length).value = .ok s)
    (hr : r ∈ Node.raws s.body) (hindent : w.Indents) {depth : Nat} {word : String}
    {lines : List Line} (hlines : w.node depth word (.raw r) = .ok lines) :
    (∀ l ∈ lines, ∀ line ∈ physicalLines (w.render l), isComment line = true) ↔
      ∀ n ∈ w.rawNames r, Contained n := by
  obtain ⟨hreason, hmnemonic⟩ := unbroken_of_mem_raws hd hf hs hr
  exact Writer.comments_iff hindent hreason hmnemonic hlines

end Functions

/-! ## A name that leaves its comment -/

/-- The code of a function of the oldest dialect: a return, and behind it a name of two lines that is
loaded and dropped. -/
def brokenName : List UInt8 :=
  [1, 0, 0, 0, 0, 0, 0, 0, 0, 0, 0, 0, 4, 0, 0, 1, 0, 4, 3, 0, 0, 0, 97, 10, 98, 6, 0, 0, 0, 4, 44,
    7, 0, 0, 45]

/-- The writer of a function of the oldest dialect. -/
def oldestWriter (f : Function) (s : Structured) : Writer :=
  writerOf ⟨Registry.oldest, "\t", []⟩ f.header f.constants (.ofStructured s)

theorem brokenName_tree : ∃ f ∈ (Script.decode Registry.oldest brokenName).functions, f.complete ∧
    ∃ s, (Structured.ofInstructions Registry.oldest {} f.instructions
      (some f.codeLength)).value = .ok s ∧ ∃ r ∈ Node.raws s.body,
      ∃ lines, (oldestWriter f s).node 1 "if" (.raw r) = .ok lines ∧
        (oldestWriter f s).rawNames r = ["a\nb"] := by
  have hfound : ((Script.decode Registry.oldest brokenName).functions.any fun f =>
      f.complete && (Structured.ofInstructions Registry.oldest {} f.instructions
        (some f.codeLength)).value.toOption.any fun s => (Node.raws s.body).any fun r =>
          ((oldestWriter f s).node 1 "if" (.raw r)).toOption.isSome &&
            (oldestWriter f s).rawNames r == ["a\nb"]) = true := by
    decide +kernel
  obtain ⟨f, hf, hfound⟩ := List.any_eq_true.mp hfound
  simp only [Bool.and_eq_true, Option.any_eq_true, List.any_eq_true, beq_iff_eq] at hfound
  obtain ⟨hcomplete, s, hs, r, hr, hlines, hnames⟩ := hfound
  obtain ⟨lines, hlines⟩ := Option.isSome_iff_exists.mp hlines
  exact ⟨f, hf, hcomplete, s, Outcome.toOption_eq_some.mp hs, r, hr, lines,
    Outcome.toOption_eq_some.mp hlines, hnames⟩

/-- Something else than a comment follows the line break. -/
theorem not_contained_brokenName : ¬ Contained "a\nb" := by
  rw [contained_iff]
  simp [Tame, StartsComment]

theorem oldestWriter_indents (f : Function) (s : Structured) : (oldestWriter f s).Indents := by
  intro c hc
  obtain rfl : c = '\t' := by simpa [oldestWriter, writerOf] using hc
  exact ⟨by decide, by decide⟩

/-- A name of two lines in code that is never reached. -/
theorem node_raw_comments_brokenName :
    ∃ f ∈ (Script.decode Registry.oldest brokenName).functions,
      ∃ s, (Structured.ofInstructions Registry.oldest {} f.instructions
        (some f.codeLength)).value = .ok s ∧ ∃ r ∈ Node.raws s.body,
        ∃ lines, (oldestWriter f s).node 1 "if" (.raw r) = .ok lines ∧
          ¬ ∀ l ∈ lines, ∀ line ∈ physicalLines ((oldestWriter f s).render l),
            isComment line = true := by
  obtain ⟨f, hf, -, s, hs, r, hr, lines, hlines, hnames⟩ := brokenName_tree
  have hcomments := node_raw_comments (Dialect.registered_of_mem Registry.oldest_mem) hf hs hr
    (oldestWriter_indents f s) hlines
  refine ⟨f, hf, s, hs, r, hr, lines, hlines, fun hall => not_contained_brokenName ?_⟩
  exact hcomments.mp hall _ (hnames ▸ List.mem_singleton_self _)

/-- Not every line of every raw node is a comment. -/
theorem not_forall_isComment :
    ¬ ∀ d ∈ Registry.standard.dialects, ∀ payload, ∀ f ∈ (Script.decode d payload).functions,
      f.complete → ∀ s, (Structured.ofInstructions d {} f.instructions
        (some f.codeLength)).value = .ok s → ∀ r ∈ Node.raws s.body,
      ∀ lines, (writerOf ⟨d, "\t", []⟩ f.header f.constants (.ofStructured s)).node 1 "if" (.raw r) =
          .ok lines →
        ∀ l ∈ lines, ∀ line ∈ physicalLines
          ((writerOf ⟨d, "\t", []⟩ f.header f.constants (.ofStructured s)).render l),
          isComment line = true := by
  intro h
  obtain ⟨f, hf, hcomplete, s, hs, r, hr, lines, hlines, hnames⟩ := brokenName_tree
  have hall := h Registry.oldest Registry.oldest_mem brokenName f hf hcomplete s hs r hr lines hlines
  obtain ⟨hreason, hmnemonic⟩ :=
    unbroken_of_mem_raws (Dialect.registered_of_mem Registry.oldest_mem) hf hs hr
  refine not_contained_brokenName ?_
  exact (Writer.comments_iff (oldestWriter_indents f s) hreason hmnemonic hlines).mp hall _
    (hnames ▸ List.mem_singleton_self _)

end Unscript.Source
