import Unscript.Proofs.Source.Nesting
import Unscript.Source.Unit

/-!
# Reading back functions

The text of a function is its first line with the lines of its body below it. If the nodes of the
body can be read, a reader finds the first line and what the body says, and every line that has a
suite is followed by one.

Results:
* `Source.Writer.legible_declared`: marking declarations leaves nodes legible.
* `Source.Writer.exists_body_conveys`: a body of legible nodes is written and read as what it says.
* `Source.exists_functionText`: so is a function.
-/

namespace Unscript.Source

open Node (Each)

/-! ## Declarations -/

theorem exprs_declaredStmt (arguments : Nat) (seen : List Nat) (stmt : Stmt) :
    (declaredStmt arguments seen stmt).exprs = stmt.exprs := by
  unfold declaredStmt
  split <;> rfl

theorem exists_of_mem_declaredStmts {arguments : Nat} {seen : List Nat} {ss : List Stmt} {stmt : Stmt}
    (h : stmt ∈ declaredStmts arguments seen ss) : ∃ stmt' ∈ ss, stmt.exprs = stmt'.exprs := by
  induction ss generalizing seen with
  | nil => cases h
  | cons first ss ih =>
    rw [declaredStmts] at h
    rcases List.mem_cons.mp h with rfl | h
    · exact ⟨first, List.mem_cons_self, exprs_declaredStmt arguments seen first⟩
    · obtain ⟨stmt', hstmt', heq⟩ := ih h
      exact ⟨stmt', List.mem_cons_of_mem _ hstmt', heq⟩

namespace Writer

variable {w : Writer} {arguments : Nat} {tree : List Node}

mutual

theorem legible_declaredNode {seen : List Nat} {n : Node} (h : Each w.Legible [n]) :
    Each w.Legible [declaredNode arguments seen n] := by
  cases n with
  | block b =>
    rw [declaredNode]
    refine Node.each_lone ⟨fun c hc => ?_, nofun, trivial⟩ rfl
    cases hc with
    | statement hstmt =>
      obtain ⟨stmt, hstmt, heq⟩ := exists_of_mem_declaredStmts hstmt
      rw [Content.exprs, heq]
      exact h.head.tidy _ (.statement hstmt)
  | sequence body =>
    rw [declaredNode]
    exact Node.each_sequence.mpr ⟨⟨nofun, nofun, trivial⟩,
      legible_declared (Node.each_sequence.mp h).2⟩
  | forLoop iterator element iterable body setup latch =>
    obtain ⟨hn, hbody⟩ := Node.each_forLoop.mp h
    rw [declaredNode]
    refine .forLoop ⟨fun c hc => ?_, nofun, trivial⟩ hbody
    cases hc with
    | iteration => exact hn.tidy _ .iteration
    | setup hstmt =>
      obtain ⟨stmt, hstmt, heq⟩ := exists_of_mem_declaredStmts hstmt
      rw [Content.exprs, heq]
      exact hn.tidy _ (.setup hstmt)
    | latch hstmt => exact hn.tidy _ (.latch hstmt)
  | _ =>
    rw [declaredNode]
    · exact h
    all_goals nofun

/-- Legible nodes are legible with their declarations marked. -/
theorem legible_declared {seen : List Nat} {ns : List Node} (h : Each w.Legible ns) :
    Each w.Legible (declared arguments seen ns) := by
  cases ns with
  | nil =>
    rw [declared]
    exact Node.each_nil
  | cons n ns =>
    obtain ⟨hn, hns⟩ := Node.each_cons.mp h
    rw [declared]
    exact (legible_declaredNode hn).cons (legible_declared hns)

end

theorem Legible.sayable {n : Node} (h : w.Legible n) : w.Sayable n := by
  refine ⟨fun c hc => exists_contentText (h.tidy c hc), ?_⟩
  rintro r rfl
  exact h.written.elim

/-! ## Bodies -/

section Reading

variable (hslots : ∀ slot, isPlain (w.scope.names.name slot) = true) (hindent : w.Indents)
  (hpos : 0 < w.indent.length)

include hslots hindent hpos

/-- **A body of legible nodes** is written, and its lines are read as a suite that says what the body
says. -/
theorem exists_body_conveys (h : Each w.Legible tree) {depth : Nat} (hdepth : depth ≠ 0) :
    ∃ lines, w.body depth tree = .ok lines ∧ ∃ ts, w.Nests depth lines ts ∧
      ∀ column text, (Nest.mk column text ts).suite? w.wildcard = some (w.bodyOutline tree) := by
  obtain ⟨lines, hlines⟩ := exists_body_ok (h.mono fun _ hn => hn.sayable) depth
  obtain ⟨declarations, ls, hdeclarations, hls, hend⟩ := body_eq hlines
  obtain ⟨before, hbefore, hdeclares⟩ := reads_lines hslots hindent hpos (fun c hc => by
    obtain ⟨slot, -, rfl⟩ := List.mem_map.mp hc
    exact ⟨fun _ he => absurd he List.not_mem_nil, .inr ⟨rfl, _, rfl⟩⟩) hdeclarations
  have hkept : Each w.Legible (w.keptBody tree) := by
    rcases keeps_keptBody w tree with heq | ⟨value, implicit, heq, -⟩
    · rwa [heq]
    · rw [heq] at h
      exact (Node.each_append.mp h).1
  obtain ⟨ts, hnests, hreads⟩ :=
    (lays_of_nodes (legible_declared hkept) hls).conveys hslots hindent hpos trivial
  rw [Part.Says, outlines_declared] at hreads
  have hitems : ((hoisted w.scope.names.arguments tree).map Content.declaration).flatMap w.itemOf =
      (hoisted w.scope.names.arguments tree).map fun slot =>
        .declaration (w.scope.names.name slot) := by
    rw [List.flatMap_map, List.map_eq_flatMap]
    rfl
  rw [hitems] at hdeclares
  have hfilled : Filled w depth (declarations ++ ls) lines :=
    hend.resolve_left fun hzero => hdepth hzero.2
  obtain ⟨us, hnests, hsuite⟩ :=
    (hbefore.append hnests).suite hindent hpos (hdeclares.append hreads) hfilled
  exact ⟨lines, hlines, us, hnests, hsuite⟩

end Reading

end Writer

/-! ## Texts -/

theorem joined_toList (texts : List String) :
    (joined texts).toList = texts.flatMap fun t => t.toList ++ ['\n'] := by
  induction texts with
  | nil => rfl
  | cons text texts ih =>
    cases texts with
    | nil => simp [joined]
    | cons next texts =>
      have hjoined : joined (text :: next :: texts) = text ++ ("\n" ++ joined (next :: texts)) := by
        simp [joined, String.intercalate_cons_cons, String.append_assoc]
      rw [hjoined, String.toList_append, String.toList_append, ih, List.flatMap_cons]
      simp

/-- The rows of lines that are put together are the rows of the lines. -/
theorem rows_joined {texts : List String} (h : ∀ t ∈ texts, '\n' ∉ t.toList) :
    rows (joined texts) = texts.filterMap fun t => row? t.toList := by
  have hlines : physicalLines (joined texts) = texts.map String.toList ++ [[]] := by
    unfold physicalLines
    rw [joined_toList]
    induction texts with
    | nil => rfl
    | cons text texts ih =>
      obtain ⟨htext, h⟩ := List.forall_mem_cons.mp h
      rw [List.flatMap_cons, List.append_assoc, List.singleton_append, List.map_cons,
        List.cons_append, ← ih h]
      have hunbroken : ∀ c ∈ text.toList, (c == '\n') = false := fun c hc =>
        beq_false_of_ne fun heq => htext (heq ▸ hc)
      exact List.splitOnP_append_cons_of_forall_mem hunbroken '\n' (beq_self_eq_true _) _
  unfold rows
  rw [hlines, List.filterMap_append, List.filterMap_map]
  exact List.append_nil _

/-! ## Functions -/

/-- What the first line of a function says: whether it is static, and its name with its arguments. -/
def heading (h : Header) : Bool × String :=
  (h.isStatic, h.displayName ++ "(" ++ commaList (NameTable.ofHeader h).argumentNames ++ ")")

theorem signature_eq (h : Header) : signature h =
    (if h.isStatic then "static " else "") ++ ("func" ++ (" " ++ ((heading h).2 ++ ":"))) := by
  unfold signature heading
  cases h.isStatic <;> simp [← String.toList_inj, toString]

theorem signature?_eq (isStatic : Bool) (middle : String) :
    signature? ((if isStatic then "static " else "") ++
      ("func" ++ (" " ++ (middle ++ ":")))).toList = some (isStatic, middle) := by
  have hbetween := between?_eq "func" middle
  unfold signature?
  cases isStatic with
  | true =>
    have hdrop : ("static " ++ ("func" ++ (" " ++ (middle ++ ":")))).toList.drop 7 =
        ("func" ++ (" " ++ (middle ++ ":"))).toList := by
      simp
    have hstart : "static ".toList.isPrefixOf
        ("static " ++ ("func" ++ (" " ++ (middle ++ ":")))).toList = true := by
      simp
    rw [if_pos rfl, hstart]
    dsimp only
    rw [if_pos rfl, hdrop, hbetween]
    rfl
  | false =>
    have hstart : "static ".toList.isPrefixOf
        ("func" ++ (" " ++ (middle ++ ":"))).toList = false := by
      rw [String.toList_append]
      rfl
    rw [if_neg Bool.false_ne_true, String.empty_append, hstart]
    dsimp only
    rw [if_neg Bool.false_ne_true, hbetween]
    rfl

theorem clear_signature {h : Header} (hname : isPlain h.displayName = true)
    (hslots : ∀ slot, isPlain ((NameTable.ofHeader h).name slot) = true) : Clear (signature h) := by
  have harguments : ∀ t ∈ (NameTable.ofHeader h).argumentNames, '\n' ∉ t.toList := by
    intro t ht
    obtain ⟨slot, -, rfl⟩ := List.mem_map.mp ht
    exact isPlain_unbroken (hslots slot)
  have hrest : '\n' ∉ (" " ++ ((heading h).2 ++ ":")).toList := by
    simp [heading, isPlain_unbroken hname, commaList_unbroken harguments]
  have hfunc : Clear "func" := .word (by decide)
  have hstatic : Clear "static " := ⟨⟨'s', _, rfl, by decide, by decide⟩, by decide⟩
  rw [signature_eq]
  cases h.isStatic with
  | true =>
    refine hstatic.append ?_
    rw [String.toList_append, List.mem_append, not_or]
    exact ⟨by decide, hrest⟩
  | false =>
    rw [if_neg Bool.false_ne_true, String.empty_append]
    exact hfunc.append hrest

/-- **A function of legible nodes** is written, and its text is read as its first line and what its
body says. -/
theorem exists_functionText {style : Style} {h : Header} {pool : List Constant} {t : Tree}
    {w : Writer} (hw : writerOf style h pool t = w) (hname : isPlain h.displayName = true)
    (hslots : ∀ slot, isPlain (w.scope.names.name slot) = true) (hindent : w.Indents)
    (hpos : 0 < w.indent.length) (hlegible : Each w.Legible t.body) :
    ∃ text, functionText style h pool t = .ok text ∧
      readFunction? w.wildcard text = some (heading h, w.bodyOutline t.body) := by
  obtain ⟨lines, hlines, ts, hnests, hsuite⟩ :=
    Writer.exists_body_conveys hslots hindent hpos hlegible (Nat.one_ne_zero)
  have hclear : Clear (signature h) := clear_signature hname (by subst hw; exact hslots)
  refine ⟨joined (signature h :: lines.map w.render),
    Outcome.bind_eq_ok.mpr ⟨lines, hw ▸ hlines, by subst hw; rfl⟩, ?_⟩
  -- The first line stands above the lines of the body.
  have htexts : signature h :: lines.map w.render =
      (⟨0, .remark (signature h), signature h⟩ :: lines).map w.render := by
    rw [List.map_cons, Writer.render]
    exact congrArg (· :: _) String.empty_append.symm
  have hall := hnests.under hindent hpos (d := 0)
    (l := ⟨0, .remark (signature h), signature h⟩) rfl hclear
  have hrows : nested (rows (joined (signature h :: lines.map w.render))) =
      [.mk (w.column 0) (signature h).toList ts] := by
    rw [htexts, rows_joined (List.forall_mem_map.mpr hall.unbroken), List.filterMap_map]
    exact hall.nested
  have hcolumn : w.column 0 = 0 := Nat.zero_mul _
  have hsignature : signature? (signature h).toList = some (heading h) := by
    rw [signature_eq]
    exact signature?_eq _ _
  unfold readFunction?
  rw [hrows]
  simp only [Nest.indent, Nest.text, hcolumn, hsignature, hsuite, ne_eq, not_true, if_false, bind,
    Option.bind, pure]

end Unscript.Source
