import Unscript.Proofs.Lifting.Origin
import Unscript.Proofs.Source.Lines
import Mathlib.Data.List.Nodup

/-!
# Uses of slots

The lines of a body use the slots that its nodes do, in the same order. A line outside every
construct declares the slot that it assigns exactly when no use of the slot comes before.

* `Source.Line.uses`: the slots that a line uses, and how.
* `Source.Content.declares?`, `Source.Content.needs`: the slot that a line declares, and those that
  it takes for declared.
* `Source.Marks`: lines that declare what they assign first.

Results:
* `Source.Writer.Lays.uses`, `Source.Writer.marks_nodes`: what holds of the lines of nodes.
* `Source.Marks.mem_declared`, `Source.Marks.nodup`, `Source.mem_hoisted`: what is declared, in the
  lines of the nodes and at the top.
-/

namespace Unscript.Source

open Node (Each)

/-! ## Uses of slots -/

/-- The slots that a line uses, in the order of its text. -/
def Content.uses (top : Bool) : Content → List (Nat × Use)
  | .statement stmt => stmtUses top stmt
  | .test _ e | .subject e | .pattern e | .ret (some e) => exprUses e
  | .iteration element e => exprUses e ++ [(element, .iterated)]
  | _ => []

/-- The slots that a line uses in a body at a depth. -/
def Line.uses (base : Nat) (l : Line) : List (Nat × Use) :=
  l.content.uses (l.depth == base)

/-- The slot that a line declares as a variable. -/
def Content.declares? : Content → Option Nat
  | .declaration slot => some slot
  | .statement stmt => if stmt.declares then stmt.assigned? else none
  | _ => none

/-- The slots that a line takes for declared: all that it reads, and one that it assigns without
declaring it. -/
def Content.needs : Content → List Nat
  | .statement stmt => stmt.reads ++ if stmt.declares then [] else stmt.assigned?.toList
  | .test _ e | .iteration _ e | .subject e | .pattern e | .ret (some e) => e.slotsRead
  | _ => []

/-- The uses of a part. -/
def Part.uses (top : Bool) : Part → List (Nat × Use)
  | .node _ n => nodeUses top n
  | .body ns => nodesUses top ns
  | .cases cs => casesUses cs
  | .fallback b => fallbackUses b

/-- A construct whose cases, if it has any, compare with constants. -/
def ConstantCases : Node → Prop
  | .sequence _ => False
  | .matching _ _ cs _ _ => ∀ c ∈ cs, c.1.isConst = true
  | _ => True

/-- A node whose statements declare nothing. -/
def Undeclaring (n : Node) : Prop :=
  ∀ stmt, Carries n (.statement stmt) → stmt.declares = false

theorem Content.uses_of_isMark {c : Content} (h : c.isMark = true) (top : Bool) :
    c.uses top = [] := by
  cases c <;> first | rfl | cases h

theorem exprUses_const {e : Expr} (h : e.isConst = true) : exprUses e = [] := by
  cases e <;> first | rfl | cases h

namespace Writer

variable {w : Writer} {d base : Nat} {ls : List Line}

theorem flatMap_uses {cs : List Content} (h : w.lines d cs = .ok ls) :
    ls.flatMap (·.uses base) = cs.flatMap (·.uses (d == base)) := by
  obtain ⟨hcontents, hdepth⟩ := lines_ok h
  rw [← hcontents, List.flatMap_map]
  exact List.flatMap_congr fun l hl => by unfold Line.uses; rw [hdepth l hl]

theorem uses_line {c : Content} {l : Line} (h : w.line d c = .ok l) :
    l.uses base = c.uses (d == base) := by
  obtain ⟨hdepth, hcontent, -⟩ := line_ok h
  unfold Line.uses
  rw [hdepth, hcontent]

theorem block_uses (b : BlockNode) (top : Bool) :
    (w.block b).flatMap (·.uses top) = stmtsUses top b.statements := by
  unfold block label stmtsUses
  rw [List.flatMap_append, List.flatMap_map]
  split <;> rfl

theorem Filled.uses {suite : List Line} (h : Filled w d ls suite) :
    suite.flatMap (·.uses base) = ls.flatMap (·.uses base) := by
  cases h with
  | kept => rfl
  | passed => rw [List.flatMap_append]; exact List.append_nil _

theorem nodesUses_append (top : Bool) (a b : List Node) :
    nodesUses top (a ++ b) = nodesUses top a ++ nodesUses top b := by
  induction a with
  | nil => rw [nodesUses]; rfl
  | cons n a ih => rw [List.cons_append, nodesUses, nodesUses, ih, List.append_assoc]

theorem nodesUses_singleton (top : Bool) (n : Node) : nodesUses top [n] = nodeUses top n := by
  rw [nodesUses, nodesUses, List.append_nil]

/-- Blocks without statements use nothing. -/
theorem nodesUses_blank {blanks : List BlockNode} (h : ∀ b ∈ blanks, b.statements = [])
    (top : Bool) : nodesUses top (blanks.map .block) = [] := by
  induction blanks with
  | nil => rw [List.map_nil, nodesUses]
  | cons b blanks ih =>
    obtain ⟨hb, h⟩ := List.forall_mem_cons.mp h
    rw [List.map_cons, nodesUses, nodeUses, hb, ih h]
    rfl

theorem label_uses (id : Nat) (top : Bool) : (w.label id).flatMap (·.uses top) = [] :=
  List.flatMap_eq_nil_iff.mpr fun _ hc => Content.uses_of_isMark (isMark_of_mem_label hc) top

/-- **Lines use the slots that the nodes do,** in the same order. -/
theorem Lays.uses {p : Part} (h : Lays w ConstantCases d p ls) (hbase : base ≤ d) :
    ls.flatMap (·.uses base) = p.uses (d == base) := by
  have hdeeper {d : Nat} (hd : base ≤ d) : (d + 1 == base) = false := by
    rw [beq_eq_false_iff_ne]
    omega
  induction h with
  | block _ h => rw [flatMap_uses h, block_uses, Part.uses, nodeUses]
  | sequence hn => exact hn.elim
  | lone _ hhead _ harm ih =>
    simp only [List.flatMap_cons, uses_line hhead, harm.uses, ih (by omega), hdeeper hbase,
      Part.uses, nodeUses, nodesUses, Content.uses, List.append_nil]
  | chained _ hhead _ harm hblank _ ih ihnext =>
    have hblank := nodesUses_blank (fun b hb => (hblank b hb).1) false
    simp only [List.cons_append, List.flatMap_cons, List.flatMap_append, uses_line hhead, harm.uses,
      ih (by omega), ihnext hbase, hdeeper hbase, Part.uses, nodeUses, nodesUses_append, hblank,
      nodesUses_singleton, Content.uses, List.nil_append, List.append_assoc]
  | @divided d _ _ _ _ _ _ _ _ _ _ _ hhead _ harm _ _ hother ih ih' =>
    have hseparator : Line.uses base ⟨d, .otherwise, "else:"⟩ = [] := rfl
    simp only [List.cons_append, List.flatMap_cons, List.flatMap_append, uses_line hhead, harm.uses,
      hother.uses, ih (by omega), ih' (by omega), hdeeper hbase, Part.uses, nodeUses, Content.uses,
      hseparator, List.nil_append, List.append_assoc]
  | @whileLoop d _ _ _ header _ labels _ _ _ hlabels hhead _ hsuite ih =>
    have hnone : labels.flatMap (·.uses base) = [] := by
      rw [flatMap_uses hlabels]
      cases header with
      | none => rfl
      | some b => exact label_uses b.id _
    simp only [List.flatMap_append, List.flatMap_cons, hnone, uses_line hhead, hsuite.uses,
      ih (by omega), hdeeper hbase, Part.uses, nodeUses, Content.uses, List.nil_append]
  | forLoop _ hsetup hhead _ hlatch hsuite ih =>
    have hblock {d : Nat} {b : BlockNode} {ls : List Line} (h : w.lines d (w.block b) = .ok ls) :
        ls.flatMap (·.uses base) = stmtsUses (d == base) b.statements :=
      (flatMap_uses h).trans (block_uses _ _)
    have hsetup := hblock hsetup
    have hlatch := hblock hlatch
    simp only [List.flatMap_append, List.flatMap_cons, hsetup, hlatch, uses_line hhead, hsuite.uses,
      ih (by omega), hdeeper hbase, Part.uses, nodeUses, Content.uses, List.append_assoc]
  | matching _ hhead _ _ ih ih' =>
    simp only [List.cons_append, List.flatMap_cons, List.flatMap_append, uses_line hhead,
      ih (by omega), ih' (by omega), Part.uses, nodeUses, Content.uses, List.append_assoc]
  | @ret _ _ value _ _ _ h =>
    rw [List.flatMap_singleton, uses_line h, Part.uses]
    cases value <;> rw [nodeUses] <;> rfl
  | leaveLoop => rw [Part.uses, nodeUses]; rfl
  | nextTurn => rw [Part.uses, nodeUses]; rfl
  | raw _ hcomments h =>
    rw [flatMap_uses h, Part.uses, nodeUses]
    exact List.flatMap_eq_nil_iff.mpr fun c hc =>
      Content.uses_of_isMark (isMark_of_comments hcomments c hc) _
  | nil => rw [Part.uses, nodesUses]; rfl
  | cons _ _ ih ih' =>
    rw [List.flatMap_append, ih hbase, ih' hbase]
    simp only [Part.uses, nodesUses]
  | noCase => rw [Part.uses, casesUses]; rfl
  | case hof hhead _ hsuite _ ih ih' =>
    obtain ⟨_, _, _, _, _, hn, hmem⟩ := hof
    have hpattern := exprUses_const (hn _ hmem)
    dsimp only at hpattern
    simp only [List.cons_append, List.flatMap_cons, List.flatMap_append, uses_line hhead,
      hsuite.uses, ih (by omega), ih' hbase, hdeeper hbase, Part.uses, casesUses, Content.uses,
      hpattern, List.nil_append]
  | absent => rw [Part.uses, fallbackUses]; rfl
  | present hhead _ hsuite ih =>
    simp only [List.flatMap_cons, uses_line hhead, hsuite.uses, ih (by omega), hdeeper hbase,
      Part.uses, fallbackUses, Content.uses, List.nil_append]

end Writer

/-! ## Declarations among the uses -/

theorem lookup_reads (slots : List Nat) (uses : List (Nat × Use)) (k : Nat) :
    (slots.map (·, Use.other) ++ uses).lookup k =
      if k ∈ slots then some .other else uses.lookup k := by
  induction slots with
  | nil => rfl
  | cons slot slots ih =>
    rw [List.map_cons, List.cons_append, List.lookup_cons, ih]
    by_cases hk : k = slot
    · simp [hk]
    · simp [hk, beq_false_of_ne hk]

theorem lookup_single (slot k : Nat) (u : Use) :
    [(slot, u)].lookup k = if slot = k then some u else none := by
  by_cases hk : slot = k
  · simp [hk]
  · simp [List.lookup_cons, beq_false_of_ne (Ne.symm hk), hk]

/-- An expression reads the slots that it uses. -/
theorem lookup_exprUses (e : Expr) (k : Nat) :
    (exprUses e).lookup k = if k ∈ e.slotsRead then some .other else none := by
  unfold exprUses
  rw [← List.append_nil (List.map _ _), lookup_reads]
  rfl

/-- A statement reads slots before it assigns one. -/
theorem lookup_stmtUses (top : Bool) (stmt : Stmt) (k : Nat) :
    (stmtUses top stmt).lookup k =
      if k ∈ stmt.reads then some .other
      else if stmt.assigned? = some k then some (if top then .assigned else .other)
      else none := by
  unfold stmtUses
  rw [lookup_reads]
  cases stmt.assigned? with
  | none => rfl
  | some slot => simp [lookup_single]

/-- Only a statement outside every construct is an assignment that may declare. -/
theorem Line.lookup_uses_ne {base : Nat} {l : Line}
    (h : ∀ stmt, l.content = .statement stmt → base ≠ l.depth) (k : Nat) :
    (l.uses base).lookup k ≠ some .assigned := by
  unfold Line.uses
  cases hcontent : l.content with
  | statement stmt =>
    have hdepth : (l.depth == base) = false := beq_false_of_ne (h stmt hcontent).symm
    rw [hdepth, Content.uses, lookup_stmtUses]
    split <;> simp
  | iteration element e =>
    rw [Content.uses, exprUses, lookup_reads, lookup_single]
    split <;> simp
  | test _ e | subject e | pattern e => simp [Content.uses, lookup_exprUses]
  | ret value => cases value <;> simp [Content.uses, lookup_exprUses]
  | _ => simp [Content.uses]

/-- Lines that declare the slots from `arguments` on that they assign before any other use; `seen`
are the slots used before. -/
def Marks (arguments base : Nat) : (seen : List Nat) → List Line → Prop
  | _, [] => True
  | seen, l :: ls =>
    (∀ k, l.content.declares? = some k ↔
      arguments ≤ k ∧ k ∉ seen ∧ (l.uses base).lookup k = some .assigned) ∧
      Marks arguments base (seen ++ (l.uses base).map (·.1)) ls

section Marks

variable {arguments base : Nat} {seen : List Nat} {a b ls : List Line}

theorem marks_append : Marks arguments base seen (a ++ b) ↔
    Marks arguments base seen a ∧
      Marks arguments base (seen ++ (a.flatMap (·.uses base)).map (·.1)) b := by
  induction a generalizing seen with
  | nil => simp [Marks]
  | cons l a ih =>
    rw [List.cons_append, Marks, Marks, ih, List.flatMap_cons, List.map_append, and_assoc,
      List.append_assoc]

/-- Lines that declare nothing and assign nothing outside the constructs. -/
theorem marks_quiet (h : ∀ l ∈ ls, l.content.declares? = none)
    (hdeep : ∀ l ∈ ls, ∀ stmt, l.content = .statement stmt → base ≠ l.depth) :
    Marks arguments base seen ls := by
  induction ls generalizing seen with
  | nil => trivial
  | cons l ls ih =>
    obtain ⟨hl, h⟩ := List.forall_mem_cons.mp h
    obtain ⟨hdeepl, hdeep⟩ := List.forall_mem_cons.mp hdeep
    refine ⟨fun k => ?_, ih h hdeep⟩
    rw [hl]
    exact ⟨nofun, fun hk => absurd hk.2.2 (Line.lookup_uses_ne hdeepl k)⟩

/-- A statement outside every construct, with its mark. -/
theorem marks_statement {l : Line} {stmt : Stmt} (hstmt : stmt.declares = false)
    (hdepth : l.depth = base)
    (hcontent : l.content = .statement (declaredStmt arguments seen stmt)) (k : Nat) :
    l.content.declares? = some k ↔
      arguments ≤ k ∧ k ∉ seen ∧ (l.uses base).lookup k = some .assigned := by
  unfold Line.uses
  rw [hcontent, hdepth, beq_self_eq_true, Content.declares?, Content.uses]
  cases hassigned : stmt.assigned? with
  | none =>
    have hsame : declaredStmt arguments seen stmt = stmt := by
      unfold declaredStmt
      cases stmt with
      | assign => rw [hassigned]
      | _ => rfl
    rw [hsame, hstmt, lookup_stmtUses, hassigned]
    simp
  | some slot =>
    cases stmt with
    | assign target value offset declares =>
      have hmarked : declaredStmt arguments seen (.assign target value offset declares) =
          .assign target value offset (arguments ≤ slot && !(seen ++
            (Stmt.assign target value offset declares).reads).contains slot) := by
        unfold declaredStmt
        rw [hassigned]
      have htarget : target.slot? = some slot := hassigned
      rw [hmarked, lookup_stmtUses]
      simp only [Stmt.declares, Stmt.assigned?, htarget, Stmt.reads, Option.isSome_some,
        List.append_nil, if_true]
      by_cases hk : slot = k
      · simp [hk]
      · simp [hk]
    | _ => cases hassigned

theorem stmtUses_declaredStmt (top : Bool) (stmt : Stmt) :
    stmtUses top (declaredStmt arguments seen stmt) = stmtUses top stmt := by
  unfold declaredStmt
  split <;> rfl

theorem stmtsUses_declaredStmts (top : Bool) (ss : List Stmt) :
    stmtsUses top (declaredStmts arguments seen ss) = stmtsUses top ss := by
  unfold stmtsUses
  induction ss generalizing seen with
  | nil => rfl
  | cons stmt ss ih =>
    rw [declaredStmts, List.flatMap_cons, List.flatMap_cons, stmtUses_declaredStmt, ih]

theorem nodeUses_declaredNode {n : Node} (hn : ConstantCases n) (top : Bool) :
    nodeUses top (declaredNode arguments seen n) = nodeUses top n := by
  cases n with
  | block b => rw [declaredNode, nodeUses, nodeUses, stmtsUses_declaredStmts]
  | sequence body => exact hn.elim
  | forLoop iterator element iterable body setup latch =>
    rw [declaredNode, nodeUses, nodeUses, stmtsUses_declaredStmts]
  | _ => rw [declaredNode] <;> nofun

theorem each_constant_declaredNode {n : Node} (h : Each ConstantCases [n]) :
    Each ConstantCases [declaredNode arguments seen n] := by
  cases n with
  | block b => rw [declaredNode]; exact Node.each_lone trivial rfl
  | sequence body => exact h.head.elim
  | forLoop iterator element iterable body setup latch =>
    rw [declaredNode]
    exact .forLoop trivial (Node.each_forLoop.mp h).2
  | _ =>
    rw [declaredNode]
    · exact h
    all_goals nofun

/-- Statements outside every construct, with their marks. -/
theorem marks_statements {ss : List Stmt} (hss : ∀ stmt ∈ ss, stmt.declares = false)
    (hcontents : ls.map (·.content) = (declaredStmts arguments seen ss).map .statement)
    (hdepth : ∀ l ∈ ls, l.depth = base) : Marks arguments base seen ls := by
  induction ss generalizing seen ls with
  | nil =>
    obtain rfl := List.map_eq_nil_iff.mp hcontents
    trivial
  | cons stmt ss ih =>
    obtain ⟨hstmt, hss⟩ := List.forall_mem_cons.mp hss
    rw [declaredStmts, List.map_cons] at hcontents
    obtain ⟨l, rest, rfl, hl, hrest⟩ := List.map_eq_cons_iff.mp hcontents
    obtain ⟨hdepthl, hdepth⟩ := List.forall_mem_cons.mp hdepth
    refine ⟨marks_statement hstmt hdepthl hl, ih hss ?_ hdepth⟩
    have huses : l.uses base = stmtUses true stmt := by
      unfold Line.uses
      rw [hl, hdepthl, beq_self_eq_true, Content.uses, stmtUses_declaredStmt]
    rw [huses, hrest]

/-- A block outside every construct, with the marks of its statements. -/
theorem marks_block {w : Writer} {b : BlockNode} (hb : ∀ stmt ∈ b.statements, stmt.declares = false)
    (h : w.lines base (w.block { b with
      statements := declaredStmts arguments seen b.statements }) = .ok ls) :
    Marks arguments base seen ls := by
  obtain ⟨hcontents, hdepth⟩ := Writer.lines_ok h
  obtain ⟨labels, rest, rfl, hlabels, hrest⟩ := List.map_eq_append_iff.mp hcontents
  obtain ⟨-, hdepth⟩ := List.forall_mem_append.mp hdepth
  have hmark : ∀ l ∈ labels, l.content.isMark = true := fun l hl =>
    Writer.isMark_of_mem_label (hlabels ▸ List.mem_map_of_mem hl)
  have hnone : labels.flatMap (·.uses base) = [] :=
    List.flatMap_eq_nil_iff.mpr fun l hl => Content.uses_of_isMark (hmark l hl) _
  refine marks_append.mpr ⟨marks_quiet (fun l hl => ?_) fun l hl stmt hstmt => ?_, ?_⟩
  · have := hmark l hl
    cases hc : l.content <;> rw [hc] at this <;> first | rfl | cases this
  · have := hmark l hl
    rw [hstmt] at this
    cases this
  · rw [hnone, List.map_nil, List.append_nil]
    exact marks_statements hb hrest hdepth

/-- What is laid out of nodes that declare nothing declares nothing. -/
theorem Writer.Heard.declares {l : Line} {d : Nat} (h : Writer.Heard Undeclaring d l) :
    l.content.declares? = none := by
  rcases h.2 with hmark | ⟨n, hn, hsays⟩
  · cases hc : l.content <;> rw [hc] at hmark <;> first | rfl | cases hmark
  · generalize hcontent : l.content = c at hsays
    cases hsays with
    | statement hstmt => rw [Content.declares?, hn _ (.statement hstmt)]; rfl
    | setup hstmt => rw [Content.declares?, hn _ (.setup hstmt)]; rfl
    | latch hstmt => rw [Content.declares?, hn _ (.latch hstmt)]; rfl
    | _ => rfl

end Marks

/-! ## Bodies -/

/-- Parts none of whose statements stands as deep as they do. -/
def Part.Shelters : Part → Prop
  | .node _ (.block _) | .node _ (.sequence _) | .node _ (.forLoop _ _ _ _ _ _) | .body _ => False
  | _ => True

namespace Writer

variable {w : Writer} {d base arguments : Nat} {seen : List Nat} {ls : List Line} {n : Node}
  {ns : List Node} {P : Node → Prop}

theorem Filled.deeper {suite : List Line} (h : Filled w (d + 1) ls suite)
    (hls : ∀ l ∈ ls, Heard P (d + 1) l) : ∀ l ∈ suite, d < l.depth :=
  h.forall (fun l hl => (hls l hl).1) fun _ hdepth _ => hdepth ▸ Nat.lt_succ_self d

/-- The statements of a conditional, a loop with a condition or a match stand deeper. -/
theorem Lays.deeper {p : Part} (h : Lays w P d p ls) (hp : p.Shelters) :
    ∀ l ∈ ls, ∀ stmt, l.content = .statement stmt → d < l.depth := by
  have hother {d : Nat} {l : Line} {c : Content} (hl : w.line d c = .ok l)
      (hc : ∀ stmt, c ≠ .statement stmt) : ∀ stmt, l.content = .statement stmt → d < l.depth := by
    intro stmt hstmt
    rw [(line_ok hl).2.1] at hstmt
    exact absurd hstmt (hc stmt)
  have hmark {d : Nat} {l : Line} (h : l.content.isMark = true) :
      ∀ stmt, l.content = .statement stmt → d < l.depth := by
    intro stmt hstmt
    rw [hstmt] at h
    cases h
  have hsuite {d : Nat} {inner suite : List Line} {p : Part} (h : Filled w (d + 1) inner suite)
      (hinner : Lays w P (d + 1) p inner) :
      ∀ l ∈ suite, ∀ stmt, l.content = .statement stmt → d < l.depth :=
    fun l hl _ _ => h.deeper hinner.heard l hl
  induction h with
  | block => exact hp.elim
  | sequence => exact hp.elim
  | lone _ hhead htrue harm =>
    exact List.forall_mem_cons.mpr ⟨hother hhead nofun, hsuite harm htrue⟩
  | chained _ hhead htrue harm _ _ _ ihnext =>
    exact List.forall_mem_append.mpr
      ⟨List.forall_mem_cons.mpr ⟨hother hhead nofun, hsuite harm htrue⟩, ihnext trivial⟩
  | divided _ hhead htrue harm _ hfalse hfilled =>
    exact List.forall_mem_append.mpr
      ⟨List.forall_mem_cons.mpr ⟨hother hhead nofun, hsuite harm htrue⟩,
        List.forall_mem_cons.mpr ⟨hmark rfl, hsuite hfilled hfalse⟩⟩
  | @whileLoop _ _ _ _ header _ _ _ _ _ hlabels hhead hbody hfilled =>
    refine List.forall_mem_append.mpr ⟨fun l hl => hmark ?_,
      List.forall_mem_cons.mpr ⟨hother hhead nofun, hsuite hfilled hbody⟩⟩
    have hmem := List.mem_map_of_mem (f := (·.content)) hl
    rw [(lines_ok hlabels).1] at hmem
    cases header with
    | none => cases hmem
    | some b => exact isMark_of_mem_label hmem
  | forLoop => exact hp.elim
  | matching _ hhead hcases hfallback =>
    exact List.forall_mem_append.mpr
      ⟨List.forall_mem_cons.mpr ⟨hother hhead nofun, fun l hl _ _ => (hcases.heard l hl).1⟩,
        fun l hl _ _ => (hfallback.heard l hl).1⟩
  | ret _ h => exact List.forall_mem_singleton.mpr (hother h nofun)
  | leaveLoop => exact List.forall_mem_singleton.mpr (hmark rfl)
  | nextTurn => exact List.forall_mem_singleton.mpr (hmark rfl)
  | raw _ hcomments h =>
    intro l hl
    have hmem := List.mem_map_of_mem (f := (·.content)) hl
    rw [(lines_ok h).1] at hmem
    exact hmark (isMark_of_comments hcomments _ hmem)
  | nil => exact hp.elim
  | cons => exact hp.elim
  | noCase => exact fun _ hl => absurd hl List.not_mem_nil
  | case _ hhead hbody hfilled _ _ ih =>
    exact List.forall_mem_append.mpr
      ⟨List.forall_mem_cons.mpr ⟨hother hhead nofun, hsuite hfilled hbody⟩, ih trivial⟩
  | absent => exact fun _ hl => absurd hl List.not_mem_nil
  | present hhead hbody hfilled =>
    exact List.forall_mem_cons.mpr ⟨hother hhead nofun, hsuite hfilled hbody⟩

/-- A node outside every construct: its lines declare what they assign first. -/
theorem marks_node (hP : Each Undeclaring [n]) (hn : ConstantCases n)
    (h : w.node base "if" (declaredNode arguments seen n) = .ok ls) :
    Marks arguments base seen ls := by
  have hquiet {ls : List Line} (hlays : Lays w Undeclaring base (.node "if" n) ls)
      (hshelters : (Part.node "if" n).Shelters) : Marks arguments base seen ls :=
    marks_quiet (fun l hl => (hlays.heard l hl).declares) fun l hl stmt hstmt =>
      Nat.ne_of_lt (hlays.deeper hshelters l hl stmt hstmt)
  cases n with
  | block b =>
    rw [declaredNode, node] at h
    exact marks_block (fun _ hstmt => hP.head _ (.statement hstmt)) h
  | sequence body => exact hn.elim
  | forLoop iterator element iterable body setup latch =>
    rw [declaredNode, node] at h
    obtain ⟨before, hsetup, h⟩ := Outcome.bind_eq_ok.mp h
    obtain ⟨head, hhead, h⟩ := Outcome.bind_eq_ok.mp h
    obtain ⟨inner, hbody, h⟩ := Outcome.bind_eq_ok.mp h
    obtain ⟨after, hlatch, h⟩ := Outcome.bind_eq_ok.mp h
    obtain ⟨suite, hsuite, h⟩ := Outcome.bind_eq_ok.mp h
    cases h
    obtain ⟨hn, hinside⟩ := Node.each_forLoop.mp hP
    have hinner := (lays_of_nodes hinside hbody).heard
    have hafter : ∀ l ∈ after, Heard Undeclaring (base + 1) l := by
      refine heard_lines hlatch fun c hc => (mem_block hc).imp_right ?_
      rintro ⟨stmt, hstmt, rfl⟩
      exact ⟨_, hn, .latch hstmt⟩
    have hall := List.forall_mem_append.mpr ⟨hinner, hafter⟩
    have hhead := (line_ok hhead).2.1
    refine marks_append.mpr ⟨marks_block (fun _ hstmt => hn _ (.setup hstmt)) hsetup, ?_⟩
    refine marks_quiet (List.forall_mem_cons.mpr ⟨by rw [hhead]; rfl, fun l hl =>
      ((filled_ok hsuite).heard hall l hl).declares⟩) (List.forall_mem_cons.mpr ⟨?_, fun l hl _ _ =>
        Nat.ne_of_lt ((filled_ok hsuite).deeper hall l hl)⟩)
    intro stmt hstmt
    rw [hhead] at hstmt
    cases hstmt
  | _ =>
    rw [declaredNode] at h
    · exact hquiet (lays_of_node hP h) trivial
    all_goals nofun

/-- **Bodies.** Their lines use the slots that the nodes do, and declare what they assign first
outside every construct. -/
theorem marks_nodes (hP : Each Undeclaring ns) (hconst : Each ConstantCases ns)
    (h : w.nodes base (declared arguments seen ns) = .ok ls) :
    ls.flatMap (·.uses base) = nodesUses true ns ∧ Marks arguments base seen ls := by
  induction ns generalizing seen ls with
  | nil =>
    rw [declared, nodes] at h
    cases h
    exact ⟨by rw [nodesUses]; rfl, trivial⟩
  | cons n ns ih =>
    obtain ⟨hn, hP⟩ := Node.each_cons.mp hP
    obtain ⟨hconstn, hconst⟩ := Node.each_cons.mp hconst
    rw [declared, nodes] at h
    obtain ⟨first, hfirst, h⟩ := Outcome.bind_eq_ok.mp h
    obtain ⟨rest, hrest, h⟩ := Outcome.bind_eq_ok.mp h
    cases h
    obtain ⟨huses, hmarks⟩ := ih hP hconst hrest
    have hfirstUses : first.flatMap (·.uses base) = nodeUses true n := by
      have hlays := lays_of_node (each_constant_declaredNode hconstn) hfirst
      rw [hlays.uses (Nat.le_refl base), beq_self_eq_true, Part.uses,
        nodeUses_declaredNode hconstn.head]
    refine ⟨by rw [List.flatMap_append, hfirstUses, huses, nodesUses], marks_append.mpr ⟨?_, ?_⟩⟩
    · exact marks_node hn hconstn.head hfirst
    · rwa [hfirstUses]

end Writer

/-! ## First uses -/

section First

variable {arguments base : Nat} {seen : List Nat} {ls : List Line} {k : Nat}

theorem lookup_eq_none {uses : List (Nat × Use)} :
    uses.lookup k = none ↔ k ∉ uses.map (·.1) := by
  rw [List.lookup_eq_none_iff, List.mem_map]
  simp only [bne_iff_ne, ne_eq]
  constructor
  · rintro h ⟨u, hu, rfl⟩
    exact h u hu rfl
  · rintro h u hu rfl
    exact h ⟨u, hu, rfl⟩

/-- A line that declares a slot is the first one that uses it. -/
theorem Marks.split {before after : List Line} {l : Line}
    (h : Marks arguments base seen (before ++ l :: after)) :
    l.content.declares? = some k ↔ arguments ≤ k ∧ k ∉ seen ∧
      k ∉ (before.flatMap (·.uses base)).map (·.1) ∧ (l.uses base).lookup k = some .assigned := by
  obtain ⟨-, hl, -⟩ := marks_append.mp h
  rw [hl k, List.mem_append, not_or, and_assoc]

/-- **What lines declare:** the slots from `arguments` on that they assign before any other use. -/
theorem Marks.mem_declared (h : Marks arguments base seen ls) :
    k ∈ (ls.filterMap fun l => l.content.declares?) ↔ arguments ≤ k ∧ k ∉ seen ∧
      (ls.flatMap (·.uses base)).lookup k = some .assigned := by
  induction ls generalizing seen with
  | nil => simp
  | cons l ls ih =>
    obtain ⟨hl, hls⟩ := h
    have hrest := ih hls
    rw [List.mem_append, not_or, and_assoc] at hrest
    rw [List.mem_filterMap, List.exists_mem_cons_iff, ← List.mem_filterMap, hl, hrest,
      List.flatMap_cons, List.lookup_append]
    by_cases hk : k ∈ (l.uses base).map (·.1)
    · obtain ⟨u, hu⟩ := Option.ne_none_iff_exists'.mp (mt lookup_eq_none.mp (not_not.mpr hk))
      simp [hk, hu]
    · simp [hk, lookup_eq_none.mpr hk]

/-- No slot is declared twice. -/
theorem Marks.nodup (h : Marks arguments base seen ls) :
    (ls.filterMap fun l => l.content.declares?).Nodup := by
  induction ls generalizing seen with
  | nil => exact List.nodup_nil
  | cons l ls ih =>
    obtain ⟨hl, hls⟩ := h
    cases hdeclares : l.content.declares? with
    | none =>
      simp only [List.filterMap_cons, hdeclares]
      exact ih hls
    | some slot =>
      simp only [List.filterMap_cons, hdeclares]
      refine List.nodup_cons.mpr ⟨fun hmem => ?_, ih hls⟩
      obtain ⟨-, hnew, -⟩ := hls.mem_declared.mp hmem
      obtain ⟨-, -, hassigned⟩ := (hl slot).mp hdeclares
      refine hnew (List.mem_append_right _ (Decidable.by_contra fun hk => ?_))
      rw [lookup_eq_none.mpr hk] at hassigned
      cases hassigned

theorem nodup_eraseDups (xs : List Nat) : xs.eraseDups.Nodup := by
  match xs with
  | [] => exact List.nodup_nil
  | x :: xs =>
    rw [List.eraseDups_cons, List.nodup_cons]
    refine ⟨fun hx => ?_, nodup_eraseDups (xs.filter fun y => !y == x)⟩
    simpa using List.mem_eraseDups.mp hx
termination_by xs.length
decreasing_by exact Nat.lt_succ_of_le (List.length_filter_le _ xs)

/-- What is declared at the top: the slots from `arguments` on whose first use is no assignment
outside every construct and no element. -/
theorem mem_hoisted {tree : List Node} :
    k ∈ hoisted arguments tree ↔ arguments ≤ k ∧ (nodesUses true tree).lookup k = some .other := by
  unfold hoisted
  dsimp only
  rw [List.mem_filter, List.mem_mergeSort, List.mem_eraseDups, List.mem_filter, beq_iff_eq,
    decide_eq_true_iff]
  constructor
  · rintro ⟨⟨-, hle⟩, hother⟩
    exact ⟨hle, hother⟩
  · rintro ⟨hle, hother⟩
    refine ⟨⟨Decidable.by_contra fun hk => ?_, hle⟩, hother⟩
    rw [lookup_eq_none.mpr hk] at hother
    cases hother

theorem nodup_hoisted (arguments : Nat) (tree : List Node) : (hoisted arguments tree).Nodup := by
  unfold hoisted
  dsimp only
  exact List.filter_sublist.nodup ((List.mergeSort_perm _ _).nodup_iff.mpr (nodup_eraseDups _))

end First

end Unscript.Source
