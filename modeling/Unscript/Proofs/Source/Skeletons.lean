import Unscript.Proofs.Source.Bodies
import Unscript.Proofs.Source.References

/-!
# Skeletons of decoded functions

The source text of a decoded function without raw code, read back by its indentation, has the control
structure of the tree. The names in it have to be plain, and two texts must not be mistaken: the
short form of a call that gets a node, which may end with a line break, and a case whose constant is
a function with the name that stands for every other case.

* `Source.Writer.paths`: the short forms in a body.
* `Source.patterns`: the patterns of its cases.
* `Source.Scope.isWildcard`: whether a pattern is written like the case for every other one.

Results:
* `Source.functionText_reads_back`: a function is read back as what its tree says.
-/

namespace Unscript.Source

open Node (Each)

/-! ## Short forms -/

/-- The parts of an expression are smaller than the whole. -/
theorem sizeOf_lt_of_mem_children {e c : Expr} (h : c ∈ e.children) : sizeOf c < sizeOf e := by
  cases e with
  | method obj name args =>
    rw [Expr.method.sizeOf_spec]
    rcases List.mem_cons.mp h with rfl | h
    · omega
    · have := List.sizeOf_lt_of_mem h
      omega
  | group of items =>
    have := List.sizeOf_lt_of_mem (show c ∈ items from h)
    rw [Expr.group.sizeOf_spec]
    omega
  | attr | index | binary | unary | cast =>
    simp only [Expr.children, List.mem_cons, List.not_mem_nil, or_false] at h
    rcases h with rfl | rfl <;> simp <;> omega
  | _ => cases h

namespace Scope

variable (s : Scope)

/-- The short form of a call, if an expression is one that has it. -/
def ownPath? : Expr → Option String
  | .method obj name args => if obj = .self then s.shortPath? name args else none
  | .group (.call name) args => s.shortPath? name args
  | _ => none

/-- The short forms in an expression. -/
def paths (e : Expr) : List String :=
  e.walk.filterMap s.ownPath?

/-- The names that an expression prints itself, without its parts. -/
def ownNames : Expr → List String
  | .const index => ((s.constant index).toOption.map s.constantNames).getD []
  | .slot slot => [s.names.name slot]
  | .member name | .global name | .attr _ name | .cast _ name | .method _ name _
  | .group (.call name) _ => [s.nameText name]
  | .group (.builtin index) _ => [s.builtinText index]
  | _ => []

variable {s} {e : Expr} {name : String}

theorem printedAll_eq (es : List Expr) : s.printedAll es = es.map s.printed := by
  induction es with
  | nil => rw [printedAll, List.map_nil]
  | cons e es ih => rw [printedAll, ih, List.map_cons]

theorem mem_of_mem_itemNames {namess : List (List String)} (h : name ∈ (itemNames namess).flatten) :
    name ∈ namess.flatten := by
  induction namess using itemNames.induct with
  | case1 key value rest ih =>
    rw [itemNames, List.flatten_cons, List.mem_append] at h
    rw [List.flatten_cons, List.flatten_cons, ← List.append_assoc, List.mem_append]
    exact h.imp_right ih
  | case2 namess hshort =>
    rw [itemNames] at h
    · cases h
    · exact hshort

/-- A printed name is of the expression itself, its short form, or of a part. -/
theorem own_or_child_of_printed (h : name ∈ s.printed e) :
    name ∈ s.ownNames e ∨ s.ownPath? e = some name ∨ ∃ c ∈ e.children, name ∈ s.printed c := by
  have hlist {es : List Expr} (hname : name ∈ (s.printedAll es).flatten) :
      ∃ c ∈ es, name ∈ s.printed c := by
    rw [printedAll_eq, ← List.flatMap_def] at hname
    exact List.mem_flatMap.mp hname
  cases e with
  | const | slot | member | global => exact .inl (by simpa [printed, ownNames] using h)
  | bool | self => simp [printed] at h
  | attr obj id | cast obj id =>
    rw [printed, List.mem_append] at h
    rcases h with h | h
    · exact .inr (.inr ⟨obj, List.mem_singleton_self _, h⟩)
    · exact .inl h
  | index a b | binary op a b =>
    rw [printed, List.mem_append] at h
    rcases h with h | h
    · exact .inr (.inr ⟨a, List.mem_cons_self, h⟩)
    · exact .inr (.inr ⟨b, List.mem_cons_of_mem _ (List.mem_singleton_self _), h⟩)
  | unary op a =>
    rw [printed] at h
    exact .inr (.inr ⟨a, List.mem_singleton_self _, h⟩)
  | method obj id args =>
    rw [printed] at h
    split at h
    · rename_i path hpath
      obtain rfl := List.mem_singleton.mp h
      exact .inr (.inl hpath)
    · rw [List.mem_append, List.mem_append] at h
      rcases h with (h | h) | h
      · exact .inr (.inr ⟨obj, List.mem_cons_self, h⟩)
      · exact .inl h
      · obtain ⟨c, hc, h⟩ := hlist h
        exact .inr (.inr ⟨c, List.mem_cons_of_mem _ hc, h⟩)
  | group of items =>
    cases of with
    | call id =>
      rw [printed] at h
      split at h
      · rename_i path hpath
        obtain rfl := List.mem_singleton.mp h
        exact .inr (.inl hpath)
      · rw [List.mem_append] at h
        exact h.imp_right fun h => .inr (hlist h)
    | builtin index =>
      rw [printed, List.mem_append] at h
      exact h.imp_right fun h => .inr (hlist h)
    | dictionary =>
      rw [printed] at h
      exact .inr (.inr (hlist (mem_of_mem_itemNames h)))
    | array | yield =>
      rw [printed] at h
      exact .inr (.inr (hlist h))

theorem exists_part_of_printed (e : Expr) (h : name ∈ s.printed e) :
    ∃ part ∈ e.walk, name ∈ s.ownNames part ∨ s.ownPath? part = some name := by
  rcases own_or_child_of_printed h with h | h | ⟨c, hc, h⟩
  · exact ⟨e, mem_walk_self e, .inl h⟩
  · exact ⟨e, mem_walk_self e, .inr h⟩
  · obtain ⟨part, hpart, h⟩ := exists_part_of_printed c h
    exact ⟨part, mem_walk_of_mem_children hc hpart, h⟩
termination_by sizeOf e
decreasing_by exact sizeOf_lt_of_mem_children hc

/-- The names of an expression itself are plain. -/
theorem isPlain_of_mem_ownNames (h : s.Refers e) (hname : name ∈ s.ownNames e) :
    isPlain name = true := by
  have hidentifier {index : Nat} (hindex : s.IsName index) :
      ∀ name ∈ [s.nameText index], isPlain name = true := by
    obtain ⟨text, htext, hplain⟩ := hindex
    exact List.forall_mem_singleton.mpr (nameText_eq htext ▸ hplain)
  cases e with
  | const index =>
    obtain ⟨c, hc, hwritable⟩ := h
    rw [ownNames, hc] at hname
    cases c with
    | subscript i =>
      obtain rfl := List.mem_singleton.mp hname
      cases hi : s.functions[i]? with
      | none => exact isPlain_numbered (by decide : isWord "func_".toList = true) i
      | some name => exact hwritable name hi
    | _ => cases hname
  | slot k =>
    obtain rfl := List.mem_singleton.mp hname
    exact h
  | member | global | attr | cast | method => exact hidentifier h name hname
  | group of items =>
    cases of with
    | call => exact hidentifier h name hname
    | builtin index =>
      obtain rfl := List.mem_singleton.mp hname
      exact isPlain_builtinText h
    | _ => cases hname
  | _ => cases hname

/-- **Names that are plain stand on one line**, and so does an expression unless it has a short form
that does not. -/
theorem tidy_of_named (h : s.Named e) (hpaths : ∀ path ∈ s.paths e, '\n' ∉ path.toList) :
    s.Tidy e := by
  refine ⟨h, fun name hname => ?_⟩
  obtain ⟨part, hpart, hname | hpath⟩ := exists_part_of_printed e hname
  · exact isPlain_unbroken (isPlain_of_mem_ownNames (h part hpart) hname)
  · exact hpaths name (List.mem_filterMap.mpr ⟨part, hpart, hpath⟩)

/-! ## Patterns -/

/-- Whether a pattern is a function of the unit with the name that stands for every other case. -/
def isWildcard (s : Scope) : Expr → Bool
  | .const index =>
    s.dialect.supports "wildcard" &&
      match s.constant index with
      | .ok (.subscript i) => s.functions[i]? == some "_"
      | _ => false
  | _ => false

/-- A constant is written as an underscore only if it is a function of that name. -/
theorem functions_of_exprText {index : Nat} (h : s.Tidy (.const index))
    (htext : s.exprText (.const index) = "_") :
    ∃ i, s.constant index = .ok (.subscript i) ∧ s.functions[i]? = some "_" := by
  obtain ⟨w, hw, hwritten⟩ := write_of_expr (htext ▸ h.expr_eq)
  rw [write] at hw
  obtain ⟨c, hc, hw⟩ := Outcome.bind_eq_ok.mp hw
  obtain ⟨text, hliteral, hw⟩ := Outcome.bind_eq_ok.mp hw
  cases hw
  obtain rfl : text = "_" := hwritten
  obtain ⟨i, rfl⟩ := exists_subscript_of_isPlain hliteral (by decide)
  have hname : s.functions[i]?.getD s!"func_{i}" = "_" := Except.ok.inj hliteral
  refine ⟨i, hc, ?_⟩
  cases hi : s.functions[i]? with
  | none =>
    rw [hi] at hname
    have hhead := congrArg (·.toList.head?) hname
    simp [toString] at hhead
  | some name => rw [← hname, hi, Option.getD_some]

end Scope

/-- **Cases are told apart**: only such a function is written as what stands for every other case. -/
theorem Writer.exprText_ne_wildcard {w : Writer} {index : Nat} (h : w.scope.Tidy (.const index))
    (hne : w.scope.isWildcard (.const index) = false) :
    w.scope.exprText (.const index) ≠ w.wildcard := by
  intro htext
  unfold wildcard at htext
  split at htext
  · rename_i hwildcard
    obtain ⟨i, hc, hname⟩ := Scope.functions_of_exprText h htext
    simp [Scope.isWildcard, hwildcard, hc, hname] at hne
  · -- A pattern does not begin like a declaration.
    have hword := h.begins.word
    rw [htext] at hword
    exact hword (by decide)

/-! ## Nodes -/

/-- The expressions that a node writes itself, without the nodes inside it. -/
def ownExprs : Node → List Expr
  | .block b => b.statements.flatMap (·.exprs)
  | .ifElse _ condition _ _ | .whileLoop condition _ _ => [condition]
  | .forLoop _ _ iterable _ setup latch =>
    iterable :: (setup.statements ++ latch.statements).flatMap (·.exprs)
  | .matching _ subject cs _ _ => subject :: cs.map (·.1)
  | .ret value _ => value.toList
  | _ => []

/-- The patterns of a node's own cases. -/
def ownPatterns : Node → List Expr
  | .matching _ _ cs _ _ => cs.map (·.1)
  | _ => []

/-- The patterns of the cases in a body. -/
def patterns (body : List Node) : List Expr :=
  (Node.preorderAll body).flatMap ownPatterns

/-- The short forms in a body. -/
def Writer.paths (w : Writer) (body : List Node) : List String :=
  (Node.preorderAll body).flatMap fun n => (ownExprs n).flatMap w.scope.paths

theorem mem_ownExprs {n : Node} {c : Content} (h : Carries n c) {e : Expr} (he : e ∈ c.exprs) :
    e ∈ ownExprs n := by
  have hstatement {ss : List Stmt} {stmt : Stmt} (hstmt : stmt ∈ ss) (he : e ∈ stmt.exprs) :
      e ∈ ss.flatMap (·.exprs) :=
    List.mem_flatMap.mpr ⟨stmt, hstmt, he⟩
  cases h with
  | statement h => exact hstatement h he
  | setup h => exact List.mem_cons_of_mem _ (hstatement (List.mem_append_left _ h) he)
  | latch h => exact List.mem_cons_of_mem _ (hstatement (List.mem_append_right _ h) he)
  | test | again => exact he
  | iteration | subject =>
    obtain rfl := List.mem_singleton.mp he
    exact List.mem_cons_self
  | pattern h =>
    obtain rfl := List.mem_singleton.mp he
    exact List.mem_cons_of_mem _ (List.mem_map_of_mem h)
  | @ret value =>
    cases value with
    | none => cases he
    | some value => exact he

section Functions

variable {payload : List UInt8} {f : Function} {options : StructureOptions} {length : Option Nat}
  {s : Structured} {style : Style} {w : Writer}

/-- The blocks of tests in a tree hold no statements, and without raw code all others are written. -/
theorem statesAll_of_ofInstructions {d : Dialect} {is : List Instruction}
    (hs : (Structured.ofInstructions d options is length).value = .ok s)
    (hraw : Node.raws s.body = []) : Each StatesAll s.body := by
  rcases Structured.drawn_of_ofInstructions hs with hnil | ⟨flow, -, hdrawn⟩
  · rw [hnil]
    exact Node.each_nil
  · intro n hn
    have hdrawn := hdrawn n hn
    cases n with
    | whileLoop => exact hdrawn.2
    | matching => exact ⟨hdrawn.1, hdrawn.2.2⟩
    | raw r =>
      have hmem : r ∈ Node.raws s.body := List.mem_filterMap.mpr ⟨.raw r, hn, rfl⟩
      rw [hraw] at hmem
      cases hmem
    | _ => trivial

/-- The nodes of a decoded function with plain names can be read. -/
theorem legible_of_ofInstructions (hd : style.dialect.Registered)
    (hf : f ∈ (Script.decode style.dialect payload).functions) (hcomplete : f.complete)
    (hs : (Structured.ofInstructions style.dialect options f.instructions length).value = .ok s)
    (hraw : Node.raws s.body = []) (hplain : PlainNames style f)
    (hw : writerOf style f.header f.constants (.ofStructured s) = w)
    (hpaths : ∀ path ∈ w.paths s.body, '\n' ∉ path.toList)
    (hpatterns : ∀ e ∈ patterns s.body, w.scope.isWildcard e = false) : Each w.Legible s.body := by
  have hnamed := named_of_ofInstructions hd hf hcomplete hs hplain hw
  have hconst := (undeclaring_of_ofInstructions hd hf hs).2
  have hstates := statesAll_of_ofInstructions hs hraw
  intro n hn
  have htidy : ∀ c, Carries n c → ∀ e ∈ c.exprs, w.scope.Tidy e := fun c hc e he =>
    Scope.tidy_of_named (hnamed n hn c hc e he) fun path hpath =>
      hpaths path (List.mem_flatMap.mpr
        ⟨n, hn, List.mem_flatMap.mpr ⟨e, mem_ownExprs hc he, hpath⟩⟩)
  refine ⟨htidy, fun e hc => ?_, hstates n hn⟩
  have htidy := htidy _ hc e (List.mem_singleton_self e)
  cases hc with
  | @pattern id subject cs fallback tests c hmem =>
    have hisConst := hconst _ hn c hmem
    have hne := hpatterns c.1 (List.mem_flatMap.mpr ⟨_, hn, List.mem_map_of_mem hmem⟩)
    generalize c.1 = e at htidy hisConst hne
    cases e with
    | const index => exact Writer.exprText_ne_wildcard htidy hne
    | _ => cases hisConst

/-- **Functions read back.** A completely decoded function whose names are plain and whose tree has no
raw code is written, and its lines are read by their indentation as the first line and what the tree
says, if every short form in it stands on one line and no case is mistaken for the one that stands
for every other. -/
theorem functionText_reads_back (hd : style.dialect.Registered)
    (hf : f ∈ (Script.decode style.dialect payload).functions) (hcomplete : f.complete)
    (hs : (Structured.ofInstructions style.dialect {} f.instructions (some f.codeLength)).value =
      .ok s)
    (hraw : Node.raws s.body = []) (hindent : style.indent ≠ "")
    (hblanks : ∀ c ∈ style.indent.toList, c = ' ' ∨ c = '\t') (hplain : PlainNames style f)
    (hw : writerOf style f.header f.constants (.ofStructured s) = w)
    (hpaths : ∀ path ∈ w.paths s.body, '\n' ∉ path.toList)
    (hpatterns : ∀ e ∈ patterns s.body, w.scope.isWildcard e = false) :
    ∃ text, functionText style f.header f.constants (.ofStructured s) = .ok text ∧
      readFunction? w.wildcard text = some (heading f.header, w.bodyOutline s.body) := by
  have hslots : ∀ slot, isPlain (w.scope.names.name slot) = true := by
    rw [← hw]
    exact NameTable.isPlain_ofHeader hplain.locals
  have hindents : w.Indents := by
    rw [← hw]
    intro c hc
    rcases hblanks c hc with rfl | rfl <;> decide
  have hpos : 0 < w.indent.length := by
    rw [← hw]
    exact Nat.pos_of_ne_zero fun hzero => hindent (String.length_eq_zero_iff.mp hzero)
  exact exists_functionText hw hplain.function hslots hindents hpos
    (legible_of_ofInstructions hd hf hcomplete hs hraw hplain hw hpaths hpatterns)

end Functions

/-! ## A match in an iteration -/

/-- The code of a function of the first dialect with matches: an iteration over its argument, with a
match of the element in it. -/
def matchInTurn : List UInt8 :=
  [1, 0, 0, 0, 0, 0, 1, 0, 0, 0, 102, 1, 4, 0, 2, 0, 0, 5, 0, 2, 1, 0, 0, 0, 0, 0, 0, 0, 2, 2, 0, 0,
    0, 0, 0, 0, 0, 4, 8, 0, 0, 0, 103, 101, 116, 95, 110, 111, 100, 101, 4, 3, 0, 0, 0, 97, 47, 98,
    2, 3, 0, 0, 0, 0, 0, 0, 0, 100, 0, 0, 0, 2, 0, 0, 44, 1, 0, 2, 0, 96, 0, 0, 0, 2, 2, 0, 1, 0, 0,
    12, 43, 30, 0, 0, 0, 50, 41, 81, 0, 0, 0, 2, 2, 0, 1, 1, 0, 12, 43, 56, 0, 0, 0, 2, 3, 0, 43,
    81, 0, 0, 0, 50, 41, 81, 0, 0, 0, 2, 2, 0, 1, 4, 0, 12, 43, 73, 0, 0, 0, 41, 81, 0, 0, 0, 1, 3,
    0, 38, 2, 0, 1, 48, 2, 2, 0, 3, 3, 0, 45, 1, 0, 2, 0, 12, 0, 0, 0, 1, 0, 0, 47, 0, 0]

/-- How the functions of these units are written. -/
def matchingStyle : Style :=
  ⟨Registry.firstMatching, "\t", ["f"]⟩

/-- The writer of such a function. -/
def styledWriter (f : Function) (s : Structured) : Writer :=
  writerOf matchingStyle f.header f.constants (.ofStructured s)

theorem matchInTurn_tree : ∃ f ∈ (Script.decode Registry.firstMatching matchInTurn).functions,
    f.complete ∧ PlainNames matchingStyle f ∧
      ∃ s, (Structured.ofInstructions Registry.firstMatching {} f.instructions
        (some f.codeLength)).value = .ok s ∧ Node.raws s.body = [] ∧
        (∀ path ∈ (styledWriter f s).paths s.body, '\n' ∉ path.toList) ∧
        ∀ e ∈ patterns s.body, (styledWriter f s).scope.isWildcard e = false := by
  have hfound : ((Script.decode Registry.firstMatching matchInTurn).functions.any fun f =>
      f.complete && decide (PlainNames matchingStyle f) &&
        (Structured.ofInstructions Registry.firstMatching {} f.instructions
          (some f.codeLength)).value.toOption.any fun s =>
            (Node.raws s.body).isEmpty &&
              decide (∀ path ∈ (styledWriter f s).paths s.body, '\n' ∉ path.toList) &&
              decide (∀ e ∈ patterns s.body, (styledWriter f s).scope.isWildcard e = false)) =
          true := by
    decide +kernel
  obtain ⟨f, hf, hfound⟩ := List.any_eq_true.mp hfound
  simp only [Bool.and_eq_true, Option.any_eq_true, decide_eq_true_eq, List.isEmpty_iff] at hfound
  obtain ⟨⟨hcomplete, hplain⟩, s, hs, ⟨hraw, hpaths⟩, hpatterns⟩ := hfound
  exact ⟨f, hf, hcomplete, hplain, s, Outcome.toOption_eq_some.mp hs, hraw, hpaths, hpatterns⟩

/-- Its text is read back. -/
theorem functionText_reads_back_matchInTurn :
    ∃ f ∈ (Script.decode Registry.firstMatching matchInTurn).functions, f.complete ∧
      ∃ s, (Structured.ofInstructions Registry.firstMatching {} f.instructions
        (some f.codeLength)).value = .ok s ∧ Node.raws s.body = [] ∧
        ∃ text, functionText matchingStyle f.header f.constants (.ofStructured s) = .ok text ∧
          readFunction? (styledWriter f s).wildcard text =
            some (heading f.header, (styledWriter f s).bodyOutline s.body) := by
  obtain ⟨f, hf, hcomplete, hplain, s, hs, hraw, hpaths, hpatterns⟩ := matchInTurn_tree
  have hd : matchingStyle.dialect.Registered :=
    Dialect.registered_of_mem Registry.firstMatching_mem
  exact ⟨f, hf, hcomplete, s, hs, hraw, functionText_reads_back hd hf hcomplete hs hraw (by decide)
    (by simp [matchingStyle]) hplain rfl hpaths hpatterns⟩

/-! ## A path with a line break -/

/-- The code of a function of the same dialect: a conditional on a node, whose path ends with a line
break. -/
def brokenPath : List UInt8 :=
  [1, 0, 0, 0, 0, 0, 1, 0, 0, 0, 102, 0, 0, 0, 1, 0, 0, 2, 0, 4, 2, 0, 0, 0, 97, 10, 4, 8, 0, 0, 0,
    103, 101, 116, 95, 110, 111, 100, 101, 13, 0, 0, 0, 1, 0, 0, 38, 1, 0, 1, 43, 13, 0, 0, 0, 50, 0,
    0]

/-- The condition of its text is cut in two, so that no reader finds a suite behind it. -/
theorem brokenPath_text : ∃ f ∈ (Script.decode Registry.firstMatching brokenPath).functions,
    f.complete ∧ PlainNames matchingStyle f ∧
      ∃ s, (Structured.ofInstructions Registry.firstMatching {} f.instructions
        (some f.codeLength)).value = .ok s ∧ Node.raws s.body = [] ∧
        functionText matchingStyle f.header f.constants (.ofStructured s) =
          .ok "func f():\n\tif $a\n:\n\t\tbreakpoint\n" := by
  have hfound : ((Script.decode Registry.firstMatching brokenPath).functions.any fun f =>
      f.complete && decide (PlainNames matchingStyle f) &&
        (Structured.ofInstructions Registry.firstMatching {} f.instructions
          (some f.codeLength)).value.toOption.any fun s =>
            (Node.raws s.body).isEmpty &&
              (functionText matchingStyle f.header f.constants (.ofStructured s)).toOption ==
                some "func f():\n\tif $a\n:\n\t\tbreakpoint\n") = true := by
    decide +kernel
  obtain ⟨f, hf, hfound⟩ := List.any_eq_true.mp hfound
  simp only [Bool.and_eq_true, Option.any_eq_true, decide_eq_true_eq, List.isEmpty_iff,
    beq_iff_eq] at hfound
  obtain ⟨⟨hcomplete, hplain⟩, s, hs, hraw, htext⟩ := hfound
  exact ⟨f, hf, hcomplete, hplain, s, Outcome.toOption_eq_some.mp hs, hraw,
    Outcome.toOption_eq_some.mp htext⟩

/-- Not every function with plain names and without raw code is read back. -/
theorem not_forall_readFunction? :
    ¬ ∀ style : Style, style.dialect ∈ Registry.standard.dialects → style.indent ≠ "" →
      (∀ c ∈ style.indent.toList, c = ' ' ∨ c = '\t') →
      ∀ payload, ∀ f ∈ (Script.decode style.dialect payload).functions, f.complete →
      PlainNames style f → ∀ s, (Structured.ofInstructions style.dialect {} f.instructions
        (some f.codeLength)).value = .ok s → Node.raws s.body = [] →
      ∀ w, writerOf style f.header f.constants (.ofStructured s) = w →
        ∃ text, functionText style f.header f.constants (.ofStructured s) = .ok text ∧
          readFunction? w.wildcard text = some (heading f.header, w.bodyOutline s.body) := by
  intro h
  obtain ⟨f, hf, hcomplete, hplain, s, hs, hraw, htext⟩ := brokenPath_text
  obtain ⟨text, htext', hread⟩ := h matchingStyle Registry.firstMatching_mem (by decide)
    (by simp [matchingStyle]) brokenPath f hf hcomplete hplain s hs hraw _ rfl
  obtain rfl := Except.ok.inj (htext.symm.trans htext')
  have hnone : ∀ wildcard ∈ ["_", "var _"],
      (readFunction? wildcard "func f():\n\tif $a\n:\n\t\tbreakpoint\n").isNone = true := by
    decide +kernel
  have hwildcard (w : Writer) : w.wildcard ∈ ["_", "var _"] := by
    unfold Writer.wildcard
    split <;> decide
  have hunread := Option.isNone_iff_eq_none.mp (hnone _ (hwildcard (styledWriter f s)))
  cases hunread.symm.trans hread

end Unscript.Source
