import Unscript.Proofs.Source.Clauses

/-!
# Reading back what was written

The lines of a construct stand deeper than its head, so a reader who puts lines together by their
indentation finds what the nodes say.

* `Source.Writer.Legible`: a node whose lines can be read.
* `Source.Writer.Nests`: lines and how they are put together.
* `Source.Part.Says`, `Source.Writer.Conveys`: what the lines of a part are read as.

Results:
* `Source.Writer.Lays.conveys`: what is laid out is read as what it says.
-/

namespace Unscript.Source

open Node (Each)

/-! ## Rows of lines -/

theorem row?_of_blanks {blanks text : List Char} (hblanks : ∀ b ∈ blanks, Text.isBlank b = true)
    {c : Char} {cs : List Char} (htext : text = c :: cs) (hblank : Text.isBlank c = false)
    (hne : c ≠ '#') : row? (blanks ++ text) = some ⟨blanks.length, text⟩ := by
  subst htext
  unfold row?
  rw [List.dropWhile_append_of_pos hblanks, List.takeWhile_append_of_pos hblanks,
    List.dropWhile_cons_of_neg (by simp [hblank]), List.takeWhile_cons_of_neg (by simp [hblank]),
    List.append_nil]
  split
  · rename_i heq
    cases heq
  · rename_i heq
    cases heq
    exact absurd rfl hne
  · rfl

theorem row?_of_comment {line : List Char} (h : isComment line = true) : row? line = none := by
  unfold isComment at h
  unfold row?
  obtain ⟨cs, hcs⟩ := List.head?_eq_some_iff.mp (eq_of_beq h)
  rw [hcs]
  rfl

/-- A line holds code when a reader looks at it. -/
theorem isCode_eq (line : String) : isCode line = (row? line.toList).isSome := by
  unfold isCode row? Text.strip
  cases hrest : line.toList.dropWhile Text.isBlank with
  | nil => rfl
  | cons c cs =>
    have hblank : Text.isBlank c = false := by
      have hnot := List.head?_dropWhile_not Text.isBlank line.toList
      rw [hrest] at hnot
      exact hnot
    have hstrip : Text.stripEnd (c :: cs) = c :: Text.stripEnd cs :=
      @stripEnd_append [] cs c hblank
    rw [hstrip]
    by_cases hmark : c = '#'
    · subst hmark
      rfl
    · simp [hmark]

namespace Writer

variable {w : Writer} {d : Nat} {c : Content} {l : Line} {ls ls' : List Line} {ts us : List Nest}
  {os os' : List Outline}

/-- The rows of lines. -/
def rowsOf (w : Writer) (ls : List Line) : List Row :=
  ls.filterMap fun l => row? (w.render l).toList

theorem rowsOf_append (ls ls' : List Line) : w.rowsOf (ls ++ ls') = w.rowsOf ls ++ w.rowsOf ls' :=
  List.filterMap_append

theorem hasCode_iff (w : Writer) (ls : List Line) : w.hasCode ls = true ↔ w.rowsOf ls ≠ [] := by
  unfold hasCode rowsOf
  rw [List.any_eq_true, ne_eq, List.filterMap_eq_nil_iff]
  simp only [isCode_eq, not_forall, Option.isSome_iff_ne_none, exists_prop]

theorem length_pad (w : Writer) (d : Nat) : (w.pad d).toList.length = d * w.indent.length := by
  induction d with
  | zero =>
    rw [Nat.zero_mul]
    rfl
  | succ d ih =>
    rw [pad_succ, String.toList_append, List.length_append, ih, String.length_toList, Nat.succ_mul,
      Nat.add_comm]

/-- How far a line is indented. -/
def column (w : Writer) (d : Nat) : Nat :=
  d * w.indent.length

/-- A clear line is a row. -/
theorem row?_render (hindent : w.Indents) (h : Clear l.text) :
    row? (w.render l).toList = some ⟨w.column l.depth, l.text.toList⟩ := by
  obtain ⟨c, cs, htext, hblank, hne⟩ := h.head
  unfold render column
  rw [String.toList_append, ← length_pad]
  exact row?_of_blanks (fun b hb => (hindent.pad l.depth b hb).1) htext hblank hne

theorem render_unbroken (hindent : w.Indents) (h : '\n' ∉ l.text.toList) :
    '\n' ∉ (w.render l).toList := by
  unfold render
  rw [String.toList_append, List.mem_append, not_or]
  exact ⟨fun hbreak => (hindent.pad l.depth _ hbreak).2 rfl, h⟩

/-! ## Lines put together -/

/-- Lines at a depth or deeper, each on one line of the text, and how their rows are put together. -/
structure Nests (w : Writer) (d : Nat) (ls : List Line) (ts : List Nest) : Prop where
  nested : nested (w.rowsOf ls) = ts
  deep : ∀ r ∈ w.rowsOf ls, w.column d ≤ r.indent
  flat : ∀ t ∈ ts, t.indent = w.column d
  unbroken : ∀ l ∈ ls, '\n' ∉ (w.render l).toList

namespace Nests

theorem nil : w.Nests d [] [] :=
  ⟨rfl, fun _ h => absurd h List.not_mem_nil, fun _ h => absurd h List.not_mem_nil,
    fun _ h => absurd h List.not_mem_nil⟩

theorem append (h : w.Nests d ls ts) (h' : w.Nests d ls' us) : w.Nests d (ls ++ ls') (ts ++ us) := by
  refine ⟨?_, ?_, List.forall_mem_append.mpr ⟨h.flat, h'.flat⟩,
    List.forall_mem_append.mpr ⟨h.unbroken, h'.unbroken⟩⟩
  · rw [rowsOf_append, nested_append h.deep, h.nested, h'.nested]
    rw [h'.nested]
    exact fun t ht => (h'.flat t ht).le
  · rw [rowsOf_append]
    exact List.forall_mem_append.mpr ⟨h.deep, h'.deep⟩

/-- A comment is not looked at. -/
theorem comment (hindent : w.Indents) (hmark : Marked l.text) (hunbroken : '\n' ∉ l.text.toList) :
    w.Nests d [l] [] := by
  have hrender := render_unbroken hindent hunbroken
  have hcomment := isComment_render hindent hmark hunbroken (w.render l).toList
    (by rw [physicalLines_of_unbroken hrender]; exact List.mem_singleton_self _)
  have hrows : w.rowsOf [l] = [] := by
    exact List.filterMap_cons_none (f := fun l => row? (w.render l).toList) (row?_of_comment hcomment)
  exact ⟨by rw [hrows]; rfl, by rw [hrows]; exact fun _ h => absurd h List.not_mem_nil,
    fun _ h => absurd h List.not_mem_nil, List.forall_mem_singleton.mpr hrender⟩

/-- Deeper lines stand inside the line before them. -/
theorem under (hindent : w.Indents) (hpos : 0 < w.indent.length) (hdepth : l.depth = d)
    (hclear : Clear l.text) (h : w.Nests (d + 1) ls ts) :
    w.Nests d (l :: ls) [.mk (w.column d) l.text.toList ts] := by
  have hless : w.column d < w.column (d + 1) := by
    unfold column
    rw [Nat.succ_mul]
    omega
  have hrows : w.rowsOf (l :: ls) = ⟨w.column d, l.text.toList⟩ :: w.rowsOf ls := by
    rw [← hdepth]
    exact List.filterMap_cons_some (f := fun l => row? (w.render l).toList)
      (row?_render hindent hclear)
  refine ⟨?_, ?_, List.forall_mem_singleton.mpr rfl,
    List.forall_mem_cons.mpr ⟨render_unbroken hindent hclear.unbroken, h.unbroken⟩⟩
  · rw [hrows, nested_inside, h.nested]
    rw [h.nested]
    exact fun t ht => (h.flat t ht).symm ▸ hless
  · rw [hrows]
    exact List.forall_mem_cons.mpr ⟨Nat.le_refl _, fun r hr => Nat.le_of_lt
      (Nat.lt_of_lt_of_le hless (h.deep r hr))⟩

/-- A line without deeper ones behind it. -/
theorem lone (hindent : w.Indents) (hpos : 0 < w.indent.length) (hdepth : l.depth = d)
    (hclear : Clear l.text) : w.Nests d [l] [.mk (w.column d) l.text.toList []] :=
  under hindent hpos hdepth hclear nil

/-- **Suites.** Lines with a `pass` behind them if they hold no code are read as a suite. -/
theorem suite (hindent : w.Indents) (hpos : 0 < w.indent.length) (h : w.Nests d ls ts)
    (hreads : Reads w.wildcard ts os) {suite : List Line} (hfilled : Filled w d ls suite) :
    ∃ us, w.Nests d suite us ∧
      ∀ column text, (Nest.mk column text us).suite? w.wildcard = some os := by
  cases hfilled with
  | kept hcode =>
    have hne : ts ≠ [] := by
      rw [← h.nested, ne_eq, nested_eq_nil]
      exact (w.hasCode_iff ls).mp hcode
    exact ⟨ts, h, fun _ _ => suite?_of_reads hreads (aligned_of_depth hne h.flat)⟩
  | passed hcode =>
    have hnone : w.rowsOf ls = [] := by
      by_contra hne
      rw [(w.hasCode_iff ls).mpr hne] at hcode
      cases hcode
    have hnil : ts = [] := by
      rw [← h.nested, nested_eq_nil]
      exact hnone
    subst hnil
    have hos : os = [] := by
      have := hreads.eq
      rw [items?] at this
      cases this
      rfl
    subst hos
    have hpass : Clear "pass" := .word (by decide)
    exact ⟨_, h.append (lone hindent hpos rfl hpass), fun _ _ => suite?_pass⟩

end Nests

/-! ## Lines that are read one by one -/

section Lines

variable (hslots : ∀ slot, isPlain (w.scope.names.name slot) = true) (hindent : w.Indents)
  (hpos : 0 < w.indent.length)

/-- What a line without deeper ones says. -/
def itemOf (w : Writer) (c : Content) : List Outline :=
  match w.clause? c with
  | some (.item o) => [o]
  | _ => []

/-- A line that is read for itself: a label, or a statement, a declaration or a step of a construct
whose expressions are tidy. -/
structure Single (w : Writer) (c : Content) : Prop where
  tidy : ∀ e ∈ c.exprs, w.scope.Tidy e
  kind : (∃ id, c = .label id) ∨ c.isRead = true ∧ ∃ o, w.clause? c = some (.item o)

include hslots hindent hpos

theorem reads_line (hc : w.Single c) (h : w.line d c = .ok l) :
    ∃ ts, w.Nests d [l] ts ∧ Reads w.wildcard ts (w.itemOf c) := by
  obtain ⟨hdepth, hcontent, htext⟩ := line_ok h
  rcases hc.kind with ⟨id, rfl⟩ | ⟨hread, o, ho⟩
  · have htext : "# label " ++ w.labelName id ++ ":" = l.text := Except.ok.inj htext
    refine ⟨[], .comment hindent ?_ ?_, .nil⟩
    · rw [← htext]
      exact Marked.append (.append (by decide) _) _
    · rw [← htext]
      simp [w.labelName_unbroken id]
  · refine ⟨_, .lone hindent hpos hdepth (clear_of_contentText hslots hc.tidy hread htext), ?_⟩
    unfold itemOf
    rw [ho]
    exact .item (clause?_of_contentText hslots hc.tidy ho htext) rfl

theorem reads_lines {cs : List Content} (hcs : ∀ c ∈ cs, w.Single c) (h : w.lines d cs = .ok ls) :
    ∃ ts, w.Nests d ls ts ∧ Reads w.wildcard ts (cs.flatMap w.itemOf) := by
  have hall := Outcome.mapM_eq_ok.mp h
  clear h
  induction hall with
  | nil => exact ⟨[], .nil, .nil⟩
  | cons hl _ ih =>
    obtain ⟨hc, hcs⟩ := List.forall_mem_cons.mp hcs
    obtain ⟨ts, hnests, hreads⟩ := reads_line hslots hindent hpos hc hl
    obtain ⟨us, hnests', hreads'⟩ := ih hcs
    exact ⟨ts ++ us, hnests.append hnests', hreads.append hreads'⟩

/-- The lines of a block say its statements. -/
theorem reads_block {b : BlockNode} (hb : ∀ stmt ∈ b.statements, ∀ e ∈ stmt.exprs, w.scope.Tidy e)
    (h : w.lines d (w.block b) = .ok ls) :
    ∃ ts, w.Nests d ls ts ∧ Reads w.wildcard ts (w.statementOutlines b.statements) := by
  have hcs : ∀ c ∈ w.block b, w.Single c := by
    refine List.forall_mem_append.mpr ⟨fun c hc => ?_, fun c hc => ?_⟩
    · unfold label at hc
      split at hc
      · obtain rfl := List.mem_singleton.mp hc
        exact ⟨fun _ he => absurd he List.not_mem_nil, .inl ⟨_, rfl⟩⟩
      · cases hc
    · obtain ⟨stmt, hstmt, rfl⟩ := List.mem_map.mp hc
      exact ⟨hb stmt hstmt, .inr ⟨rfl, _, rfl⟩⟩
  have hitems : (w.block b).flatMap w.itemOf = w.statementOutlines b.statements := by
    have hlabel : (w.label b.id).flatMap w.itemOf = [] := by
      unfold label
      split <;> rfl
    unfold block statementOutlines
    rw [List.flatMap_append, hlabel, List.nil_append, List.flatMap_map, List.map_eq_flatMap]
    rfl
  rw [← hitems]
  exact reads_lines hslots hindent hpos hcs h

end Lines

/-! ## Nodes -/

end Writer

/-- A node all of whose statements are written. -/
def StatesAll : Node → Prop
  | .whileLoop _ _ header => ∀ b ∈ header, b.statements = []
  | .matching _ _ cs _ tests => cs ≠ [] ∧ ∀ b ∈ tests, b.statements = []
  | .raw _ => False
  | _ => True

/-- A part whose lines can stand for themselves: only conditionals are chained. -/
def Part.Proper : Part → Prop
  | .node word n => word = "if" ∨ word = "elif" ∧ ∃ id c a b, n = .ifElse id c a b
  | _ => True

/-- What the lines of a part are read as. -/
def Part.Says (w : Writer) : Part → List Nest → Prop
  | .node word n, ts =>
    if word = "elif" then Awaits w.wildcard ts (w.outline n) else Reads w.wildcard ts (w.outline n)
  | .body ns, ts => Reads w.wildcard ts (w.outlines ns)
  | .cases cs, ts => ReadsCases w.wildcard ts (w.caseOutlines cs)
  | .fallback b, ts => cases? w.wildcard ts = some ([], w.fallbackOutline b)

namespace Writer

variable {w : Writer} {d : Nat} {word : String} {n : Node}

/-- A node whose lines can be read. -/
structure Legible (w : Writer) (n : Node) : Prop where
  tidy : ∀ c, Carries n c → ∀ e ∈ c.exprs, w.scope.Tidy e
  patterns : ∀ e, Carries n (.pattern e) → w.scope.exprText e ≠ w.wildcard
  written : StatesAll n

theorem isRead_of_proper {id : Option Nat} {condition : Expr} {a b : List Node}
    (hp : (Part.node word (.ifElse id condition a b)).Proper) :
    (Content.test word condition).isRead = true := by
  rcases hp with rfl | ⟨rfl, -⟩ <;> rfl

theorem says_of_reads {ts : List Nest} (hp : (Part.node word n).Proper)
    (hn : ∀ id c a b, n ≠ .ifElse id c a b) (h : Reads w.wildcard ts (w.outline n)) :
    (Part.node word n).Says w ts := by
  rcases hp with rfl | ⟨-, id, c, a, b, rfl⟩
  · rwa [Part.Says, if_neg (show "if" ≠ "elif" by decide)]
  · exact absurd rfl (hn id c a b)

/-- A conditional says the same whether or not it is chained to another. -/
theorem says_conditional {id : Option Nat} {condition : Expr} {a b : List Node} {l : Line}
    {column : Nat} {us ts : List Nest}
    (hslots : ∀ slot, isPlain (w.scope.names.name slot) = true)
    (hp : (Part.node word (.ifElse id condition a b)).Proper)
    (htidy : ∀ e ∈ (Content.test word condition).exprs, w.scope.Tidy e)
    (hl : w.line d (.test word condition) = .ok l)
    (harm : (Nest.mk column l.text.toList us).suite? w.wildcard = some (w.outlines a))
    (hother : Follows w.wildcard ts (w.outlines b)) :
    (Part.node word (.ifElse id condition a b)).Says w (.mk column l.text.toList us :: ts) := by
  obtain ⟨-, -, htext⟩ := line_ok hl
  rcases hp with rfl | ⟨rfl, -⟩
  · rw [Part.Says, if_neg (show "if" ≠ "elif" by decide), outline]
    exact .branch (clause?_of_contentText hslots htidy rfl htext) harm hother
  · rw [Part.Says, if_pos rfl, outline]
    exact .chained (clause?_of_contentText hslots htidy rfl htext) harm hother

/-- Lines at a depth that are read as what a part says. -/
def Conveys (w : Writer) (d : Nat) (p : Part) (ls : List Line) : Prop :=
  ∃ ts, w.Nests d ls ts ∧ p.Says w ts

theorem conveys_nil : w.Conveys d (.body []) [] := by
  refine ⟨[], .nil, ?_⟩
  rw [Part.Says, outlines]
  exact .nil

theorem conveys_cons {ns : List Node} {ls rest : List Line} (h : w.Conveys d (.node "if" n) ls)
    (hrest : w.Conveys d (.body ns) rest) : w.Conveys d (.body (n :: ns)) (ls ++ rest) := by
  obtain ⟨ts, hnests, hfirst⟩ := h
  obtain ⟨us, hnests', hreads⟩ := hrest
  refine ⟨ts ++ us, hnests.append hnests', ?_⟩
  rw [Part.Says, if_neg (show "if" ≠ "elif" by decide)] at hfirst
  rw [Part.Says, outlines]
  exact hfirst.append hreads

section Layouts

variable (hslots : ∀ slot, isPlain (w.scope.names.name slot) = true) (hindent : w.Indents)
  (hpos : 0 < w.indent.length) {c : Content} {head : Line} {inner arm suite : List Line}

include hslots hindent hpos

/-- A line with a suite behind it. -/
theorem reads_suite {ts : List Nest} {os : List Outline} (htidy : ∀ e ∈ c.exprs, w.scope.Tidy e)
    (hread : c.isRead = true) (hl : w.line d c = .ok head) (h : w.Nests (d + 1) inner ts)
    (hreads : Reads w.wildcard ts os) (harm : Filled w (d + 1) inner arm) :
    ∃ us, w.Nests d (head :: arm) [.mk (w.column d) head.text.toList us] ∧
      (Nest.mk (w.column d) head.text.toList us).suite? w.wildcard = some os := by
  obtain ⟨us, hsuite, hbody⟩ := h.suite hindent hpos hreads harm
  obtain ⟨hdepth, -, htext⟩ := line_ok hl
  have hclear := clear_of_contentText hslots htidy hread htext
  exact ⟨us, hsuite.under hindent hpos hdepth hclear, hbody _ _⟩

/-- The label of the block that tests for a loop says nothing. -/
theorem reads_labels {header : Option BlockNode} {ls : List Line}
    (h : w.lines d ((header.map fun b => w.label b.id).getD []) = .ok ls) :
    ∃ ts, w.Nests d ls ts ∧ Reads w.wildcard ts [] := by
  have hlabels : ∀ c ∈ (header.map fun b => w.label b.id).getD [], ∃ id, c = .label id := by
    intro c hc
    cases header with
    | none => cases hc
    | some b =>
      simp only [Option.map_some, Option.getD_some, label] at hc
      split at hc
      · exact ⟨_, List.mem_singleton.mp hc⟩
      · cases hc
  obtain ⟨ts, hnests, hreads⟩ := reads_lines hslots hindent hpos (fun c hc => by
    obtain ⟨id, rfl⟩ := hlabels c hc
    exact ⟨fun _ he => absurd he List.not_mem_nil, .inl ⟨id, rfl⟩⟩) h
  refine ⟨ts, hnests, ?_⟩
  have hnone : ((header.map fun b => w.label b.id).getD []).flatMap w.itemOf = [] := by
    refine List.flatMap_eq_nil_iff.mpr fun c hc => ?_
    obtain ⟨id, rfl⟩ := hlabels c hc
    rfl
  rwa [hnone] at hreads

/-! ## Constructs -/

/-- A line that is a node by itself. -/
theorem conveys_line {o : Outline} (hp : (Part.node word n).Proper)
    (hn : ∀ id c a b, n ≠ .ifElse id c a b) (htidy : ∀ e ∈ c.exprs, w.scope.Tidy e)
    (hread : c.isRead = true) (ho : w.clause? c = some (.item o)) (houtline : w.outline n = [o])
    (h : w.line d c = .ok head) : w.Conveys d (.node word n) [head] := by
  obtain ⟨ts, hnests, hreads⟩ := reads_line hslots hindent hpos ⟨htidy, .inr ⟨hread, o, ho⟩⟩ h
  have hitem : w.itemOf c = [o] := by
    unfold itemOf
    rw [ho]
  refine ⟨ts, hnests, says_of_reads hp hn ?_⟩
  rwa [houtline, ← hitem]

/-- A conditional with what stands behind its first arm. -/
theorem conveys_conditional {id : Option Nat} {condition : Expr} {a b : List Node}
    {others : List Line} (hp : (Part.node word (.ifElse id condition a b)).Proper)
    (hn : w.Legible (.ifElse id condition a b)) (hhead : w.line d (.test word condition) = .ok head)
    (htrue : w.Conveys (d + 1) (.body a) inner) (harm : Filled w (d + 1) inner arm)
    (hothers : ∃ us, w.Nests d others us ∧ Follows w.wildcard us (w.outlines b)) :
    w.Conveys d (.node word (.ifElse id condition a b)) (head :: arm ++ others) := by
  have htidy := hn.tidy (.test word condition) .test
  obtain ⟨ts, hnests, hreads⟩ := htrue
  obtain ⟨us, hnests, hsuite⟩ := reads_suite hslots hindent hpos htidy (isRead_of_proper hp) hhead
    hnests hreads harm
  obtain ⟨vs, hnests', hfollows⟩ := hothers
  exact ⟨_, hnests.append hnests', says_conditional hslots hp htidy hhead hsuite hfollows⟩

/-- The second arm of a conditional behind `else`. -/
theorem follows_otherwise {b : List Node} (hfalse : w.Conveys (d + 1) (.body b) inner)
    (harm : Filled w (d + 1) inner arm) :
    ∃ us, w.Nests d (⟨d, .otherwise, "else:"⟩ :: arm) us ∧
      Follows w.wildcard us (w.outlines b) := by
  obtain ⟨ts, hnests, hreads⟩ := hfalse
  obtain ⟨us, hnests, hsuite⟩ := reads_suite hslots hindent hpos (c := .otherwise)
    (fun _ he => absurd he List.not_mem_nil) rfl rfl hnests hreads harm
  have helse := Awaits.otherwise (t := .mk (w.column d) "else:".toList us) rfl hsuite
  exact ⟨_, hnests, helse.follows⟩

theorem conveys_while {condition : Expr} {body : List Node} {header : Option BlockNode}
    {labels : List Line} (hp : (Part.node word (.whileLoop condition body header)).Proper)
    (hn : w.Legible (.whileLoop condition body header))
    (hlabels : w.lines d ((header.map fun b => w.label b.id).getD []) = .ok labels)
    (hhead : w.line d (.test "while" condition) = .ok head)
    (hbody : w.Conveys (d + 1) (.body body) inner) (hsuite : Filled w (d + 1) inner suite) :
    w.Conveys d (.node word (.whileLoop condition body header)) (labels ++ head :: suite) := by
  have htidy := hn.tidy _ .again
  obtain ⟨-, -, htext⟩ := line_ok hhead
  obtain ⟨before, hbefore, hnone⟩ := reads_labels hslots hindent hpos hlabels
  obtain ⟨ts, hnests, hreads⟩ := hbody
  obtain ⟨us, hnests, hbody⟩ := reads_suite hslots hindent hpos htidy rfl hhead hnests hreads hsuite
  refine ⟨_, hbefore.append hnests, says_of_reads hp nofun ?_⟩
  have hheader : header.toList.flatMap (·.statements) = [] :=
    List.flatMap_eq_nil_iff.mpr fun b hb => hn.written b (Option.mem_toList.mp hb)
  rw [outline, hheader]
  exact hnone.append (.loop (clause?_of_contentText hslots htidy rfl htext) hbody)

theorem conveys_iteration {iterator element : Nat} {iterable : Expr} {body : List Node}
    {setup latch : BlockNode} {before after : List Line}
    (hp : (Part.node word (.forLoop iterator element iterable body setup latch)).Proper)
    (hn : w.Legible (.forLoop iterator element iterable body setup latch))
    (hsetup : w.lines d (w.block setup) = .ok before)
    (hhead : w.line d (.iteration element iterable) = .ok head)
    (hbody : w.Conveys (d + 1) (.body body) inner)
    (hlatch : w.lines (d + 1) (w.block latch) = .ok after)
    (hsuite : Filled w (d + 1) (inner ++ after) suite) :
    w.Conveys d (.node word (.forLoop iterator element iterable body setup latch))
      (before ++ head :: suite) := by
  have htidy := hn.tidy _ .iteration
  obtain ⟨-, -, htext⟩ := line_ok hhead
  obtain ⟨before, hbefore, hstarts⟩ := reads_block hslots hindent hpos
    (fun stmt hstmt => hn.tidy _ (.setup hstmt)) hsetup
  obtain ⟨after, hafter, hends⟩ := reads_block hslots hindent hpos
    (fun stmt hstmt => hn.tidy _ (.latch hstmt)) hlatch
  obtain ⟨ts, hnests, hreads⟩ := hbody
  obtain ⟨us, hnests, hbody⟩ := reads_suite hslots hindent hpos htidy rfl hhead
    (hnests.append hafter) (Reads.append hreads hends) hsuite
  refine ⟨_, hbefore.append hnests, says_of_reads hp nofun ?_⟩
  rw [outline]
  exact hstarts.append (.iteration (clause?_of_contentText hslots htidy rfl htext) hbody)

theorem conveys_matching {id : Option Nat} {subject : Expr} {cs : List (Expr × List Node)}
    {fallback : Option (List Node)} {tests : List BlockNode} {arms rest : List Line}
    (hp : (Part.node word (.matching id subject cs fallback tests)).Proper)
    (hn : w.Legible (.matching id subject cs fallback tests))
    (hhead : w.line d (.subject subject) = .ok head) (harms : w.Conveys (d + 1) (.cases cs) arms)
    (hrest : w.Conveys (d + 1) (.fallback fallback) rest) :
    w.Conveys d (.node word (.matching id subject cs fallback tests)) (head :: arms ++ rest) := by
  have htidy := hn.tidy _ .subject
  obtain ⟨hdepth, -, htext⟩ := line_ok hhead
  obtain ⟨ts, hnests, hcases⟩ := harms
  obtain ⟨us, hnests', hfallback⟩ := hrest
  have hall := hnests.append hnests'
  -- There is a case, so the subject has a suite.
  have hne : ts ++ us ≠ [] := by
    rintro hnil
    obtain ⟨rfl, -⟩ := List.append_eq_nil_iff.mp hnil
    have hnone := ReadsCases.eq_nil hcases
    cases cs with
    | nil => exact hn.written.1 rfl
    | cons c cs =>
      rw [caseOutlines] at hnone
      cases hnone
  have hread : (Nest.mk (w.column d) head.text.toList (ts ++ us)).cases? w.wildcard =
      some (w.caseOutlines cs, w.fallbackOutline fallback) :=
    cases?_of_reads hcases hfallback (aligned_of_depth hne hall.flat)
  refine ⟨_, hall.under hindent hpos hdepth (clear_of_contentText hslots htidy rfl htext),
    says_of_reads hp nofun ?_⟩
  have htests : tests.flatMap (·.statements) = [] := List.flatMap_eq_nil_iff.mpr hn.written.2
  rw [outline, htests]
  exact .choice (clause?_of_contentText hslots htidy rfl htext) hread

theorem conveys_case {pattern : Expr} {body : List Node} {cs : List (Expr × List Node)}
    {rest : List Line} (hof : CaseOf w.Legible (pattern, body))
    (hhead : w.line d (.pattern pattern) = .ok head)
    (hbody : w.Conveys (d + 1) (.body body) inner) (hsuite : Filled w (d + 1) inner suite)
    (hrest : w.Conveys d (.cases cs) rest) :
    w.Conveys d (.cases ((pattern, body) :: cs)) (head :: suite ++ rest) := by
  obtain ⟨_, _, _, _, _, hn, hmem⟩ := hof
  have htidy := hn.tidy _ (.pattern hmem)
  obtain ⟨-, -, htext⟩ := line_ok hhead
  obtain ⟨ts, hnests, hreads⟩ := hbody
  obtain ⟨us, hnests, hbody⟩ := reads_suite hslots hindent hpos htidy rfl hhead hnests hreads hsuite
  obtain ⟨vs, hnests', hcases⟩ := hrest
  refine ⟨_, hnests.append hnests', ?_⟩
  rw [contentText, (htidy _ (List.mem_singleton_self _)).expr_eq] at htext
  rw [Part.Says, caseOutlines]
  refine .cons ?_ (hn.patterns _ (.pattern hmem)) hbody hcases
  exact (congrArg String.toList (Except.ok.inj htext)).symm.trans (String.toList_append ..)

theorem conveys_fallback {body : List Node} (hhead : w.line d .wildcard = .ok head)
    (hbody : w.Conveys (d + 1) (.body body) inner) (hsuite : Filled w (d + 1) inner suite) :
    w.Conveys d (.fallback (some body)) (head :: suite) := by
  obtain ⟨-, -, htext⟩ := line_ok hhead
  obtain ⟨ts, hnests, hreads⟩ := hbody
  obtain ⟨us, hnests, hbody⟩ := reads_suite hslots hindent hpos
    (fun _ he => absurd he List.not_mem_nil) rfl hhead hnests hreads hsuite
  refine ⟨_, hnests, ?_⟩
  rw [Part.Says, fallbackOutline]
  refine cases?_wildcard ?_ hbody
  exact (congrArg String.toList (Except.ok.inj htext)).symm.trans (String.toList_append ..)

/-- **What is laid out** is read as what it says, by the derivation of the layout. -/
theorem Lays.conveys {p : Part} {ls : List Line} (h : Lays w w.Legible d p ls) (hp : p.Proper) :
    w.Conveys d p ls := by
  induction h with
  | block hn h =>
    obtain ⟨ts, hnests, hreads⟩ := reads_block hslots hindent hpos
      (fun stmt hstmt => hn.tidy _ (.statement hstmt)) h
    exact ⟨ts, hnests, says_of_reads hp nofun (by rwa [outline])⟩
  | sequence hn h ih =>
    obtain ⟨ts, hnests, hreads⟩ := ih trivial
    exact ⟨ts, hnests, says_of_reads hp nofun (by rwa [outline])⟩
  | lone hn hhead _ harm ih =>
    rw [← List.append_nil (_ :: _)]
    refine conveys_conditional hslots hindent hpos hp hn hhead (ih trivial) harm ⟨[], .nil, ?_⟩
    rw [outlines]
    exact .nil
  | chained hn hhead _ harm hblank _ ih ihnext =>
    obtain ⟨us, hnests, hawaits⟩ := ihnext (.inr ⟨rfl, _, _, _, _, rfl⟩)
    refine conveys_conditional hslots hindent hpos hp hn hhead (ih trivial) harm ⟨us, hnests, ?_⟩
    rw [outlines_append, outlines_blanks fun x hx => (hblank x hx).1, outlines_singleton]
    exact Awaits.follows hawaits
  | divided hn hhead _ harm _ _ hother ih ih' =>
    exact conveys_conditional hslots hindent hpos hp hn hhead (ih trivial) harm
      (follows_otherwise hslots hindent hpos (ih' trivial) hother)
  | whileLoop hn hlabels hhead _ hsuite ih =>
    exact conveys_while hslots hindent hpos hp hn hlabels hhead (ih trivial) hsuite
  | forLoop hn hsetup hhead _ hlatch hsuite ih =>
    exact conveys_iteration hslots hindent hpos hp hn hsetup hhead (ih trivial) hlatch hsuite
  | matching hn hhead _ _ ih ih' =>
    exact conveys_matching hslots hindent hpos hp hn hhead (ih trivial) (ih' trivial)
  | ret hn h =>
    exact conveys_line hslots hindent hpos hp nofun (hn.tidy _ .ret) rfl rfl (by rw [outline]) h
  | leaveLoop =>
    exact conveys_line hslots hindent hpos (c := .leaveLoop) hp nofun
      (fun _ he => absurd he List.not_mem_nil) rfl rfl (by rw [outline]) rfl
  | nextTurn =>
    exact conveys_line hslots hindent hpos (c := .nextTurn) hp nofun
      (fun _ he => absurd he List.not_mem_nil) rfl rfl (by rw [outline]) rfl
  | raw hn => exact hn.written.elim
  | nil => exact conveys_nil
  | cons _ _ ih ih' => exact conveys_cons (ih (.inl rfl)) (ih' trivial)
  | noCase =>
    refine ⟨[], .nil, ?_⟩
    rw [Part.Says, caseOutlines]
    exact .nil
  | case hof hhead _ hsuite _ ih ih' =>
    exact conveys_case hslots hindent hpos hof hhead (ih trivial) hsuite (ih' trivial)
  | absent =>
    refine ⟨[], .nil, ?_⟩
    rw [Part.Says, fallbackOutline, cases?]
  | present hhead _ hsuite ih =>
    exact conveys_fallback hslots hindent hpos hhead (ih trivial) hsuite

end Layouts

end Writer

end Unscript.Source
