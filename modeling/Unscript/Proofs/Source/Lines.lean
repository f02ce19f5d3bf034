import Unscript.Proofs.Outcome
import Unscript.Proofs.Tree.Node
import Unscript.Source.Body

/-!
# How lines are laid out

The lines of a body as a derivation: which lines a node becomes at a depth, from the lines of the
nodes inside it. What holds of the lines of a body is proved by induction on it; what is known of
the nodes of the body is a parameter.

* `Source.Writer.Filled`: lines with a `pass` behind them if they hold no code.
* `Source.Writer.Lays`: the derivations of lines.
* `Source.Carries`: what the lines of a node say.
* `Source.Writer.Worded`: a line whose text is of what it says.
* `Source.Writer.keptBody`: a body without a return at its end that has nothing to say.

Results:
* `Source.Writer.lays_of_nodes`: what is written of nodes is laid out.
* `Source.Writer.Lays.heard`: what lines say is said by the nodes, and nothing inside a construct
  stands less deep than it.
* `Source.Writer.body_eq`: the lines of a body are declarations and the lines of its nodes.
* `Source.Writer.worded_of_body`: their texts are of what they say.
-/

namespace Unscript.Source

open Node (Each)

/-- What is laid out at once: a node whose first line begins with a word, nodes one after another,
the cases of a match, or its case for everything else. -/
inductive Part where
  | node (word : String) (n : Node)
  | body (ns : List Node)
  | cases (cs : List (Expr × List Node))
  | fallback (body : Option (List Node))

/-- Whether a line only marks something: where a part begins or what control does, or a comment. -/
def Content.isMark : Content → Bool
  | .otherwise | .wildcard | .leaveLoop | .nextTurn | .pass | .label _ | .remark _ => true
  | _ => false

/-- What the lines of a node say of its own, without those of the nodes inside it. -/
inductive Carries : Node → Content → Prop
  | statement {b : BlockNode} {stmt : Stmt} (h : stmt ∈ b.statements) :
    Carries (.block b) (.statement stmt)
  | test {id : Option Nat} {c : Expr} {a b : List Node} {word : String} :
    Carries (.ifElse id c a b) (.test word c)
  | again {c : Expr} {body : List Node} {header : Option BlockNode} :
    Carries (.whileLoop c body header) (.test "while" c)
  | iteration {iterator element : Nat} {iterable : Expr} {body : List Node}
    {setup latch : BlockNode} :
    Carries (.forLoop iterator element iterable body setup latch) (.iteration element iterable)
  | setup {iterator element : Nat} {iterable : Expr} {body : List Node} {setup latch : BlockNode}
    {stmt : Stmt} (h : stmt ∈ setup.statements) :
    Carries (.forLoop iterator element iterable body setup latch) (.statement stmt)
  | latch {iterator element : Nat} {iterable : Expr} {body : List Node} {setup latch : BlockNode}
    {stmt : Stmt} (h : stmt ∈ latch.statements) :
    Carries (.forLoop iterator element iterable body setup latch) (.statement stmt)
  | subject {id : Option Nat} {e : Expr} {cs : List (Expr × List Node)}
    {fallback : Option (List Node)} {tests : List BlockNode} :
    Carries (.matching id e cs fallback tests) (.subject e)
  | pattern {id : Option Nat} {e : Expr} {cs : List (Expr × List Node)}
    {fallback : Option (List Node)} {tests : List BlockNode} {c : Expr × List Node} (h : c ∈ cs) :
    Carries (.matching id e cs fallback tests) (.pattern c.1)
  | ret {value : Option Expr} {implicit : Bool} : Carries (.ret value implicit) (.ret value)

namespace Writer

variable (w : Writer) (P : Node → Prop)

/-- A case of a match that has a property. -/
def CaseOf (c : Expr × List Node) : Prop :=
  ∃ id subject cs fallback tests, P (.matching id subject cs fallback tests) ∧ c ∈ cs

/-- Lines of a suite at a depth, with `pass` behind them if they hold no code. -/
inductive Filled (depth : Nat) (lines : List Line) : List Line → Prop
  | kept (h : w.hasCode lines = true) : Filled depth lines lines
  | passed (h : w.hasCode lines = false) : Filled depth lines (lines ++ [⟨depth, .pass, "pass"⟩])

/-- How lines are laid out, for nodes that have a property. -/
inductive Lays : Nat → Part → List Line → Prop
  | block {d : Nat} {word : String} {b : BlockNode} {ls : List Line}
    (hn : P (.block b)) (h : w.lines d (w.block b) = .ok ls) : Lays d (.node word (.block b)) ls
  | sequence {d : Nat} {word : String} {ns : List Node} {ls : List Line} (hn : P (.sequence ns))
    (h : Lays d (.body ns) ls) : Lays d (.node word (.sequence ns)) ls
  | lone {d : Nat} {word : String} {id : Option Nat} {c : Expr} {whenTrue : List Node} {head : Line}
    {inner arm : List Line} (hn : P (.ifElse id c whenTrue []))
    (hhead : w.line d (.test word c) = .ok head) (htrue : Lays (d + 1) (.body whenTrue) inner)
    (harm : Filled w (d + 1) inner arm) :
    Lays d (.node word (.ifElse id c whenTrue [])) (head :: arm)
  | chained {d : Nat} {word : String} {id next : Option Nat} {c c' : Expr}
    {whenTrue a b : List Node} {blanks : List BlockNode} {head : Line} {inner arm others : List Line}
    (hn : P (.ifElse id c whenTrue (blanks.map .block ++ [.ifElse next c' a b])))
    (hhead : w.line d (.test word c) = .ok head) (htrue : Lays (d + 1) (.body whenTrue) inner)
    (harm : Filled w (d + 1) inner arm)
    (hblank : ∀ x ∈ blanks, x.statements = [] ∧ w.targets.contains x.id = false)
    (hnext : Lays d (.node "elif" (.ifElse next c' a b)) others) :
    Lays d (.node word (.ifElse id c whenTrue (blanks.map .block ++ [.ifElse next c' a b])))
      (head :: arm ++ others)
  | divided {d : Nat} {word : String} {id : Option Nat} {c : Expr} {whenTrue whenFalse : List Node}
    {head : Line} {inner arm inner' other : List Line} (hn : P (.ifElse id c whenTrue whenFalse))
    (hhead : w.line d (.test word c) = .ok head)
    (htrue : Lays (d + 1) (.body whenTrue) inner) (harm : Filled w (d + 1) inner arm)
    (hne : whenFalse ≠ []) (hfalse : Lays (d + 1) (.body whenFalse) inner')
    (hother : Filled w (d + 1) inner' other) :
    Lays d (.node word (.ifElse id c whenTrue whenFalse))
      (head :: arm ++ ⟨d, .otherwise, "else:"⟩ :: other)
  | whileLoop {d : Nat} {word : String} {c : Expr} {body : List Node} {header : Option BlockNode}
    {head : Line} {labels inner suite : List Line} (hn : P (.whileLoop c body header))
    (hlabels : w.lines d ((header.map fun b => w.label b.id).getD []) = .ok labels)
    (hhead : w.line d (.test "while" c) = .ok head) (hbody : Lays (d + 1) (.body body) inner)
    (hsuite : Filled w (d + 1) inner suite) :
    Lays d (.node word (.whileLoop c body header)) (labels ++ head :: suite)
  | forLoop {d : Nat} {word : String} {iterator element : Nat} {iterable : Expr} {body : List Node}
    {setup latch : BlockNode} {head : Line} {before inner after suite : List Line}
    (hn : P (.forLoop iterator element iterable body setup latch))
    (hsetup : w.lines d (w.block setup) = .ok before)
    (hhead : w.line d (.iteration element iterable) = .ok head)
    (hbody : Lays (d + 1) (.body body) inner)
    (hlatch : w.lines (d + 1) (w.block latch) = .ok after)
    (hsuite : Filled w (d + 1) (inner ++ after) suite) :
    Lays d (.node word (.forLoop iterator element iterable body setup latch))
      (before ++ head :: suite)
  | matching {d : Nat} {word : String} {id : Option Nat} {subject : Expr}
    {cs : List (Expr × List Node)} {fallback : Option (List Node)} {tests : List BlockNode}
    {head : Line} {arms rest : List Line} (hn : P (.matching id subject cs fallback tests))
    (hhead : w.line d (.subject subject) = .ok head)
    (hcases : Lays (d + 1) (.cases cs) arms) (hfallback : Lays (d + 1) (.fallback fallback) rest) :
    Lays d (.node word (.matching id subject cs fallback tests)) (head :: arms ++ rest)
  | ret {d : Nat} {word : String} {value : Option Expr} {implicit : Bool} {l : Line}
    (hn : P (.ret value implicit)) (h : w.line d (.ret value) = .ok l) :
    Lays d (.node word (.ret value implicit)) [l]
  | leaveLoop {d : Nat} {word : String} (hn : P .leaveLoop) :
    Lays d (.node word .leaveLoop) [⟨d, .leaveLoop, "break"⟩]
  | nextTurn {d : Nat} {word : String} (hn : P .nextTurn) :
    Lays d (.node word .nextTurn) [⟨d, .nextTurn, "continue"⟩]
  | raw {d : Nat} {word : String} {r : RawNode} {cs : List Content} {ls : List Line}
    (hn : P (.raw r)) (hcomments : w.comments r = .ok cs) (h : w.lines d cs = .ok ls) :
    Lays d (.node word (.raw r)) ls
  | nil {d : Nat} : Lays d (.body []) []
  | cons {d : Nat} {n : Node} {ns : List Node} {ls rest : List Line} (hn : Lays d (.node "if" n) ls)
    (hns : Lays d (.body ns) rest) : Lays d (.body (n :: ns)) (ls ++ rest)
  | noCase {d : Nat} : Lays d (.cases []) []
  | case {d : Nat} {pattern : Expr} {body : List Node} {cs : List (Expr × List Node)} {head : Line}
    {inner suite rest : List Line} (hof : CaseOf P (pattern, body))
    (hhead : w.line d (.pattern pattern) = .ok head)
    (hbody : Lays (d + 1) (.body body) inner) (hsuite : Filled w (d + 1) inner suite)
    (hcases : Lays d (.cases cs) rest) :
    Lays d (.cases ((pattern, body) :: cs)) (head :: suite ++ rest)
  | absent {d : Nat} : Lays d (.fallback none) []
  | present {d : Nat} {body : List Node} {head : Line} {inner suite : List Line}
    (hhead : w.line d .wildcard = .ok head) (hbody : Lays (d + 1) (.body body) inner)
    (hsuite : Filled w (d + 1) inner suite) : Lays d (.fallback (some body)) (head :: suite)

variable {w P} {d depth : Nat} {c : Content} {l : Line} {ls : List Line} {word : String}

/-! ## Lines -/

/-- A line is as deep as it is asked to be and says what it is asked to say. -/
theorem line_ok (h : w.line d c = .ok l) :
    l.depth = d ∧ l.content = c ∧ w.contentText c = .ok l.text := by
  unfold line at h
  obtain ⟨text, htext, h⟩ := Outcome.bind_eq_ok.mp h
  cases h
  exact ⟨rfl, rfl, htext⟩

/-- Lines are one for each of their contents. -/
theorem lines_ok {cs : List Content} (h : w.lines d cs = .ok ls) :
    ls.map (·.content) = cs ∧ ∀ l ∈ ls, l.depth = d := by
  have hall := Outcome.mapM_eq_ok.mp h
  clear h
  induction hall with
  | nil => exact ⟨rfl, fun _ h => absurd h List.not_mem_nil⟩
  | cons hl _ ih =>
    obtain ⟨hdepth, hcontent, -⟩ := line_ok hl
    exact ⟨by rw [List.map_cons, hcontent, ih.1], List.forall_mem_cons.mpr ⟨hdepth, ih.2⟩⟩

theorem filled_ok {suite : List Line} (h : w.filled d ls = .ok suite) : Filled w d ls suite := by
  unfold filled at h
  split at h
  · rename_i hcode
    cases h
    exact .kept hcode
  · rename_i hcode
    cases h
    exact .passed (Bool.eq_false_iff.mpr hcode)

/-- What is filled holds nothing more but perhaps a `pass`. -/
theorem Filled.exists_append {suite : List Line} (h : Filled w d ls suite) :
    ∃ passes, suite = ls ++ passes ∧ ∀ l ∈ passes, l.depth = d ∧ l.content = .pass := by
  cases h with
  | kept => exact ⟨[], (List.append_nil _).symm, fun _ h => absurd h List.not_mem_nil⟩
  | passed => exact ⟨_, rfl, List.forall_mem_singleton.mpr ⟨rfl, rfl⟩⟩

theorem Filled.forall {suite : List Line} {R : Line → Prop} (h : Filled w d ls suite)
    (hls : ∀ l ∈ ls, R l) (hpass : ∀ l : Line, l.depth = d → l.content = .pass → R l) :
    ∀ l ∈ suite, R l := by
  obtain ⟨passes, rfl, hpasses⟩ := h.exists_append
  exact List.forall_mem_append.mpr
    ⟨hls, fun l hl => hpass l (hpasses l hl).1 (hpasses l hl).2⟩

/-! ## Layouts -/

/-- A conditional that is chained to the one before stands behind blocks that print nothing. -/
theorem chains_eq {ns : List Node} (h : w.chains ns = true) :
    ∃ (blanks : List BlockNode) (id : Option Nat) (c : Expr) (a b : List Node),
      ns = blanks.map .block ++ [.ifElse id c a b] ∧
        ∀ x ∈ blanks, x.statements = [] ∧ w.targets.contains x.id = false := by
  unfold chains at h
  split at h
  · rename_i id c a b hlast
    obtain ⟨before, rfl⟩ := List.getLast?_eq_some_iff.mp hlast
    rw [List.dropLast_concat, List.all_eq_true] at h
    suffices hblanks : ∃ blanks : List BlockNode, before = blanks.map .block ∧
        ∀ x ∈ blanks, x.statements = [] ∧ w.targets.contains x.id = false by
      obtain ⟨blanks, rfl, hblank⟩ := hblanks
      exact ⟨blanks, id, c, a, b, rfl, hblank⟩
    clear hlast
    induction before with
    | nil => exact ⟨[], rfl, fun _ h => absurd h List.not_mem_nil⟩
    | cons n before ih =>
      obtain ⟨hn, hbefore⟩ := List.forall_mem_cons.mp h
      obtain ⟨blanks, rfl, hblank⟩ := ih hbefore
      split at hn
      · rename_i x
        simp only [Bool.and_eq_true, List.isEmpty_iff, Bool.not_eq_true'] at hn
        exact ⟨x :: blanks, rfl, List.forall_mem_cons.mpr ⟨hn, hblank⟩⟩
      · cases hn
  · cases h

mutual

/-- What is written of a node is laid out. -/
theorem lays_of_node {n : Node} {d : Nat} {word : String} {ls : List Line} (hP : Each P [n])
    (h : w.node d word n = .ok ls) : Lays w P d (.node word n) ls := by
  cases n with
  | block b =>
    rw [node] at h
    exact .block hP.head h
  | sequence body =>
    rw [node] at h
    obtain ⟨hn, hbody⟩ := Node.each_sequence.mp hP
    exact .sequence hn (lays_of_nodes hbody h)
  | ifElse id c whenTrue whenFalse =>
    rw [node] at h
    obtain ⟨hn, hwhenTrue, hwhenFalse⟩ := Node.each_ifElse.mp hP
    obtain ⟨head, hhead, h⟩ := Outcome.bind_eq_ok.mp h
    obtain ⟨inner, htrue, h⟩ := Outcome.bind_eq_ok.mp h
    obtain ⟨arm, harm, h⟩ := Outcome.bind_eq_ok.mp h
    split at h
    · rename_i hempty
      cases h
      obtain rfl := List.isEmpty_iff.mp hempty
      exact .lone hn hhead (lays_of_nodes hwhenTrue htrue) (filled_ok harm)
    rename_i hne
    split at h
    · rename_i hchains
      obtain ⟨others, hothers, h⟩ := Outcome.bind_eq_ok.mp h
      cases h
      obtain ⟨blanks, next, c', a, b, rfl, hblank⟩ := chains_eq hchains
      exact .chained hn hhead (lays_of_nodes hwhenTrue htrue) (filled_ok harm) hblank
        (lays_of_chained (Node.each_append.mp hwhenFalse).2 hothers List.getLast?_concat)
    · obtain ⟨separator, hseparator, h⟩ := Outcome.bind_eq_ok.mp h
      obtain ⟨inner', hfalse, h⟩ := Outcome.bind_eq_ok.mp h
      obtain ⟨other, hother, h⟩ := Outcome.bind_eq_ok.mp h
      cases hseparator
      cases h
      exact .divided hn hhead (lays_of_nodes hwhenTrue htrue) (filled_ok harm)
        (fun hnil => hne (List.isEmpty_iff.mpr hnil)) (lays_of_nodes hwhenFalse hfalse)
        (filled_ok hother)
  | whileLoop c body header =>
    rw [node] at h
    obtain ⟨hn, hinside⟩ := Node.each_whileLoop.mp hP
    obtain ⟨labels, hlabels, h⟩ := Outcome.bind_eq_ok.mp h
    obtain ⟨head, hhead, h⟩ := Outcome.bind_eq_ok.mp h
    obtain ⟨inner, hbody, h⟩ := Outcome.bind_eq_ok.mp h
    obtain ⟨suite, hsuite, h⟩ := Outcome.bind_eq_ok.mp h
    cases h
    exact .whileLoop hn hlabels hhead (lays_of_nodes hinside hbody) (filled_ok hsuite)
  | forLoop iterator element iterable body setup latch =>
    rw [node] at h
    obtain ⟨hn, hinside⟩ := Node.each_forLoop.mp hP
    obtain ⟨before, hsetup, h⟩ := Outcome.bind_eq_ok.mp h
    obtain ⟨head, hhead, h⟩ := Outcome.bind_eq_ok.mp h
    obtain ⟨inner, hbody, h⟩ := Outcome.bind_eq_ok.mp h
    obtain ⟨after, hlatch, h⟩ := Outcome.bind_eq_ok.mp h
    obtain ⟨suite, hsuite, h⟩ := Outcome.bind_eq_ok.mp h
    cases h
    exact .forLoop hn hsetup hhead (lays_of_nodes hinside hbody) hlatch (filled_ok hsuite)
  | matching id subject cs fallback tests =>
    rw [node] at h
    obtain ⟨hn, hbodies, hlast⟩ := Node.each_matching.mp hP
    obtain ⟨head, hhead, h⟩ := Outcome.bind_eq_ok.mp h
    obtain ⟨arms, hcases, h⟩ := Outcome.bind_eq_ok.mp h
    obtain ⟨rest, hfallback, h⟩ := Outcome.bind_eq_ok.mp h
    cases h
    exact .matching hn hhead
      (lays_of_cases hbodies (fun c hc => ⟨id, subject, cs, fallback, tests, hn, hc⟩) hcases)
      (lays_of_fallback hlast hfallback)
  | ret value implicit =>
    rw [node] at h
    unfold lines at h
    rw [List.mapM_cons, List.mapM_nil] at h
    obtain ⟨l, hl, h⟩ := Outcome.bind_eq_ok.mp h
    cases h
    exact .ret hP.head hl
  | leaveLoop =>
    rw [node] at h
    cases h
    exact .leaveLoop hP.head
  | nextTurn =>
    rw [node] at h
    cases h
    exact .nextTurn hP.head
  | raw r =>
    rw [node] at h
    obtain ⟨cs, hcs, h⟩ := Outcome.bind_eq_ok.mp h
    exact .raw hP.head hcs h

/-- What is written of nodes is laid out. -/
theorem lays_of_nodes {ns : List Node} {d : Nat} {ls : List Line} (hP : Each P ns)
    (h : w.nodes d ns = .ok ls) : Lays w P d (.body ns) ls := by
  cases ns with
  | nil =>
    rw [nodes] at h
    cases h
    exact .nil
  | cons n ns =>
    rw [nodes] at h
    obtain ⟨head, hhead, h⟩ := Outcome.bind_eq_ok.mp h
    obtain ⟨rest, hrest, h⟩ := Outcome.bind_eq_ok.mp h
    cases h
    obtain ⟨hn, hns⟩ := Node.each_cons.mp hP
    exact .cons (lays_of_node hn hhead) (lays_of_nodes hns hrest)

theorem lays_of_chained {ns : List Node} {n : Node} {d : Nat} {ls : List Line} (hP : Each P [n])
    (h : w.chained d ns = .ok ls) (hlast : ns.getLast? = some n) :
    Lays w P d (.node "elif" n) ls := by
  match ns with
  | [] => cases hlast
  | [m] =>
    rw [chained] at h
    cases hlast
    exact lays_of_node hP h
  | m :: m' :: ns =>
    rw [chained] at h
    · exact lays_of_chained hP h (by rwa [List.getLast?_cons_cons] at hlast)
    · exact nofun

theorem lays_of_cases {cs : List (Expr × List Node)} {d : Nat} {ls : List Line}
    (hP : ∀ c ∈ cs, Each P c.2) (hof : ∀ c ∈ cs, CaseOf P c) (h : w.matchCases d cs = .ok ls) :
    Lays w P d (.cases cs) ls := by
  match cs with
  | [] =>
    rw [matchCases] at h
    cases h
    exact .noCase
  | (pattern, body) :: cs =>
    rw [matchCases] at h
    obtain ⟨head, hhead, h⟩ := Outcome.bind_eq_ok.mp h
    obtain ⟨inner, hbody, h⟩ := Outcome.bind_eq_ok.mp h
    obtain ⟨suite, hsuite, h⟩ := Outcome.bind_eq_ok.mp h
    obtain ⟨rest, hrest, h⟩ := Outcome.bind_eq_ok.mp h
    cases h
    obtain ⟨hfirst, hP⟩ := List.forall_mem_cons.mp hP
    obtain ⟨hofFirst, hof⟩ := List.forall_mem_cons.mp hof
    exact .case hofFirst hhead (lays_of_nodes hfirst hbody) (filled_ok hsuite)
      (lays_of_cases hP hof hrest)

theorem lays_of_fallback {body : Option (List Node)} {d : Nat} {ls : List Line}
    (hP : Each P (body.getD [])) (h : w.matchFallback d body = .ok ls) :
    Lays w P d (.fallback body) ls := by
  match body with
  | none =>
    rw [matchFallback] at h
    cases h
    exact .absent
  | some body =>
    rw [matchFallback] at h
    obtain ⟨head, hhead, h⟩ := Outcome.bind_eq_ok.mp h
    obtain ⟨inner, hbody, h⟩ := Outcome.bind_eq_ok.mp h
    obtain ⟨suite, hsuite, h⟩ := Outcome.bind_eq_ok.mp h
    cases h
    exact .present hhead (lays_of_nodes hP hbody) (filled_ok hsuite)

end

/-! ## What lines say -/

/-- A block says its statements, and is marked by its label. -/
theorem mem_block {b : BlockNode} (hc : c ∈ w.block b) :
    c.isMark = true ∨ ∃ stmt ∈ b.statements, c = .statement stmt := by
  unfold block label at hc
  rcases List.mem_append.mp hc with hc | hc
  · split at hc
    · obtain rfl := List.mem_singleton.mp hc
      exact .inl rfl
    · cases hc
  · obtain ⟨stmt, hstmt, rfl⟩ := List.mem_map.mp hc
    exact .inr ⟨stmt, hstmt, rfl⟩

theorem isMark_of_mem_label {id : Nat} (hc : c ∈ w.label id) : c.isMark = true := by
  unfold label at hc
  split at hc
  · obtain rfl := List.mem_singleton.mp hc
    rfl
  · cases hc

/-- Code without structure is comments only. -/
theorem isMark_of_comments {r : RawNode} {cs : List Content} (h : w.comments r = .ok cs) :
    ∀ c ∈ cs, c.isMark = true := by
  unfold comments at h
  dsimp only at h
  split at h
  · cases h
    exact List.forall_mem_singleton.mpr rfl
  split at h
  · cases h
    intro c hc
    simp only [List.cons_append, List.nil_append, List.mem_cons, List.mem_map] at hc
    rcases hc with rfl | rfl | ⟨i, -, rfl⟩ <;> rfl
  · obtain ⟨texts, -, h⟩ := Outcome.bind_eq_ok.mp h
    obtain ⟨value, -, h⟩ := Outcome.bind_eq_ok.mp h
    cases h
    intro c hc
    simp only [List.cons_append, List.nil_append, List.mem_cons, List.mem_map] at hc
    rcases hc with rfl | rfl | ⟨text, -, rfl⟩ <;> rfl

/-- A line that a node of the property says, or that marks something. -/
def Heard (P : Node → Prop) (d : Nat) (l : Line) : Prop :=
  d ≤ l.depth ∧ (l.content.isMark = true ∨ ∃ n, P n ∧ Carries n l.content)

theorem Heard.mono {d' : Nat} (h : Heard P d l) (hd : d' ≤ d) : Heard P d' l :=
  ⟨Nat.le_trans hd h.1, h.2⟩

theorem heard_line {n : Node} (hl : w.line d c = .ok l) (hn : P n) (hc : Carries n c) :
    Heard P d l := by
  obtain ⟨hdepth, hcontent, -⟩ := line_ok hl
  exact ⟨Nat.le_of_eq hdepth.symm, .inr ⟨n, hn, hcontent ▸ hc⟩⟩

theorem heard_lines {cs : List Content} (h : w.lines d cs = .ok ls)
    (hcs : ∀ c ∈ cs, c.isMark = true ∨ ∃ n, P n ∧ Carries n c) : ∀ l ∈ ls, Heard P d l := by
  obtain ⟨hcontents, hdepth⟩ := lines_ok h
  intro l hl
  refine ⟨Nat.le_of_eq (hdepth l hl).symm, hcs l.content ?_⟩
  rw [← hcontents]
  exact List.mem_map_of_mem hl

theorem Filled.heard {suite : List Line} (h : Filled w (d + 1) ls suite)
    (hls : ∀ l ∈ ls, Heard P (d + 1) l) : ∀ l ∈ suite, Heard P d l :=
  h.forall (fun l hl => (hls l hl).mono (Nat.le_succ d)) fun l hdepth hpass =>
    ⟨hdepth ▸ Nat.le_succ d, .inl (by rw [hpass]; rfl)⟩

/-- **What lines say.** No line stands less deep than the construct that it is of, and what it says
is said by one of the nodes, if it does not only mark something. -/
theorem Lays.heard {p : Part} (h : Lays w P d p ls) : ∀ l ∈ ls, Heard P d l := by
  have hmark {d : Nat} {c : Content} {text : String} (hc : c.isMark = true) :
      Heard P d ⟨d, c, text⟩ := ⟨Nat.le_refl d, .inl hc⟩
  induction h with
  | @block _ _ b _ hn h =>
    refine heard_lines h fun c hc => (mem_block hc).imp_right ?_
    rintro ⟨stmt, hstmt, rfl⟩
    exact ⟨_, hn, .statement hstmt⟩
  | sequence _ _ ih => exact ih
  | lone hn hhead _ harm ih =>
    exact List.forall_mem_cons.mpr ⟨heard_line hhead hn .test, harm.heard ih⟩
  | chained hn hhead _ harm _ _ ih ihnext =>
    exact List.forall_mem_append.mpr
      ⟨List.forall_mem_cons.mpr ⟨heard_line hhead hn .test, harm.heard ih⟩, ihnext⟩
  | divided hn hhead _ harm _ _ hother ih ih' =>
    exact List.forall_mem_append.mpr
      ⟨List.forall_mem_cons.mpr ⟨heard_line hhead hn .test, harm.heard ih⟩,
        List.forall_mem_cons.mpr ⟨hmark rfl, hother.heard ih'⟩⟩
  | @whileLoop _ _ _ _ header _ _ _ _ hn hlabels hhead _ hsuite ih =>
    refine List.forall_mem_append.mpr ⟨heard_lines hlabels fun c hc => .inl ?_,
      List.forall_mem_cons.mpr ⟨heard_line hhead hn .again, hsuite.heard ih⟩⟩
    cases header with
    | none => cases hc
    | some b => exact isMark_of_mem_label hc
  | forLoop hn hsetup hhead _ hlatch hsuite ih =>
    refine List.forall_mem_append.mpr ⟨heard_lines hsetup fun c hc => (mem_block hc).imp_right ?_,
      List.forall_mem_cons.mpr ⟨heard_line hhead hn .iteration,
        hsuite.heard (List.forall_mem_append.mpr ⟨ih, heard_lines hlatch fun c hc =>
          (mem_block hc).imp_right ?_⟩)⟩⟩
    · rintro ⟨stmt, hstmt, rfl⟩
      exact ⟨_, hn, .setup hstmt⟩
    · rintro ⟨stmt, hstmt, rfl⟩
      exact ⟨_, hn, .latch hstmt⟩
  | matching hn hhead _ _ ih ih' =>
    exact List.forall_mem_append.mpr
      ⟨List.forall_mem_cons.mpr ⟨heard_line hhead hn .subject,
        fun l hl => (ih l hl).mono (Nat.le_succ _)⟩, fun l hl => (ih' l hl).mono (Nat.le_succ _)⟩
  | ret hn h => exact List.forall_mem_singleton.mpr (heard_line h hn .ret)
  | leaveLoop => exact List.forall_mem_singleton.mpr (hmark rfl)
  | nextTurn => exact List.forall_mem_singleton.mpr (hmark rfl)
  | raw _ hcomments h => exact heard_lines h fun c hc => .inl (isMark_of_comments hcomments c hc)
  | nil => exact fun _ hl => absurd hl List.not_mem_nil
  | cons _ _ ih ih' => exact List.forall_mem_append.mpr ⟨ih, ih'⟩
  | noCase => exact fun _ hl => absurd hl List.not_mem_nil
  | case hof hhead _ hsuite _ ih ih' =>
    obtain ⟨_, _, _, _, _, hn, hmem⟩ := hof
    exact List.forall_mem_append.mpr
      ⟨List.forall_mem_cons.mpr ⟨heard_line hhead hn (.pattern hmem), hsuite.heard ih⟩, ih'⟩
  | absent => exact fun _ hl => absurd hl List.not_mem_nil
  | present hhead _ hsuite ih =>
    obtain ⟨hdepth, hcontent, -⟩ := line_ok hhead
    exact List.forall_mem_cons.mpr
      ⟨⟨Nat.le_of_eq hdepth.symm, .inl (by rw [hcontent]; rfl)⟩, hsuite.heard ih⟩

/-! ## Texts -/

/-- A line whose text is of what it says. -/
def Worded (w : Writer) (l : Line) : Prop :=
  w.contentText l.content = .ok l.text

theorem worded_line (h : w.line d c = .ok l) : w.Worded l := by
  obtain ⟨-, hcontent, htext⟩ := line_ok h
  unfold Worded
  rwa [hcontent]

theorem worded_lines {cs : List Content} (h : w.lines d cs = .ok ls) : ∀ l ∈ ls, w.Worded l := by
  have hall := Outcome.mapM_eq_ok.mp h
  clear h
  induction hall with
  | nil => exact fun _ hl => absurd hl List.not_mem_nil
  | cons hl _ ih => exact List.forall_mem_cons.mpr ⟨worded_line hl, ih⟩

theorem Filled.worded {suite : List Line} (h : Filled w d ls suite) (hls : ∀ l ∈ ls, w.Worded l) :
    ∀ l ∈ suite, w.Worded l := by
  cases h with
  | kept => exact hls
  | passed => exact List.forall_mem_append.mpr ⟨hls, List.forall_mem_singleton.mpr rfl⟩

/-- The texts of laid out lines are of what they say. -/
theorem Lays.worded {p : Part} (h : Lays w P d p ls) : ∀ l ∈ ls, w.Worded l := by
  induction h with
  | block _ h => exact worded_lines h
  | sequence _ _ ih => exact ih
  | lone _ hhead _ harm ih => exact List.forall_mem_cons.mpr ⟨worded_line hhead, harm.worded ih⟩
  | chained _ hhead _ harm _ _ ih ihnext =>
    exact List.forall_mem_append.mpr
      ⟨List.forall_mem_cons.mpr ⟨worded_line hhead, harm.worded ih⟩, ihnext⟩
  | divided _ hhead _ harm _ _ hother ih ih' =>
    exact List.forall_mem_append.mpr
      ⟨List.forall_mem_cons.mpr ⟨worded_line hhead, harm.worded ih⟩,
        List.forall_mem_cons.mpr ⟨rfl, hother.worded ih'⟩⟩
  | whileLoop _ hlabels hhead _ hsuite ih =>
    exact List.forall_mem_append.mpr ⟨worded_lines hlabels,
      List.forall_mem_cons.mpr ⟨worded_line hhead, hsuite.worded ih⟩⟩
  | forLoop _ hsetup hhead _ hlatch hsuite ih =>
    exact List.forall_mem_append.mpr ⟨worded_lines hsetup,
      List.forall_mem_cons.mpr ⟨worded_line hhead,
        hsuite.worded (List.forall_mem_append.mpr ⟨ih, worded_lines hlatch⟩)⟩⟩
  | matching _ hhead _ _ ih ih' =>
    exact List.forall_mem_append.mpr ⟨List.forall_mem_cons.mpr ⟨worded_line hhead, ih⟩, ih'⟩
  | ret _ h => exact List.forall_mem_singleton.mpr (worded_line h)
  | leaveLoop => exact List.forall_mem_singleton.mpr rfl
  | nextTurn => exact List.forall_mem_singleton.mpr rfl
  | raw _ _ h => exact worded_lines h
  | nil => exact fun _ hl => absurd hl List.not_mem_nil
  | cons _ _ ih ih' => exact List.forall_mem_append.mpr ⟨ih, ih'⟩
  | noCase => exact fun _ hl => absurd hl List.not_mem_nil
  | case _ hhead _ hsuite _ ih ih' =>
    exact List.forall_mem_append.mpr
      ⟨List.forall_mem_cons.mpr ⟨worded_line hhead, hsuite.worded ih⟩, ih'⟩
  | absent => exact fun _ hl => absurd hl List.not_mem_nil
  | present hhead _ hsuite ih =>
    exact List.forall_mem_cons.mpr ⟨worded_line hhead, hsuite.worded ih⟩

/-! ## Bodies -/

theorem declared_append (arguments : Nat) (seen : List Nat) (a b : List Node) :
    declared arguments seen (a ++ b) =
      declared arguments seen a ++ declared arguments (seen ++ (nodesUses true a).map (·.1)) b := by
  induction a generalizing seen with
  | nil => rw [declared, nodesUses, List.map_nil, List.append_nil]; rfl
  | cons n a ih =>
    rw [List.cons_append, declared, declared, ih, nodesUses, List.map_append, List.append_assoc]
    rfl

/-- Marking declarations makes no return. -/
theorem eq_ret_of_declaredNode {arguments : Nat} {seen : List Nat} {n : Node} {value : Option Expr}
    {implicit : Bool} (h : declaredNode arguments seen n = .ret value implicit) :
    n = .ret value implicit := by
  unfold declaredNode at h
  split at h
  · cases h
  · cases h
  · cases h
  · exact h

/-- What is kept of a body: all of it, or all but a return at its end that has nothing to say. -/
def Keeps (w : Writer) (tree ns : List Node) : Prop :=
  ns = tree ∨ ∃ value implicit, tree = ns ++ [.ret value implicit] ∧ w.isBareReturn value = .ok true

/-- Whether a return has nothing to say. -/
def isBare (w : Writer) (value : Option Expr) : Bool :=
  (w.isBareReturn value).toOption.getD false

/-- A body without a return at its end that has nothing to say. -/
def keptBody (w : Writer) (body : List Node) : List Node :=
  match body.getLast? with
  | some (.ret value _) => if w.isBare value then body.dropLast else body
  | _ => body

theorem isBare_iff {value : Option Expr} : w.isBare value = true ↔ w.isBareReturn value = .ok true := by
  unfold isBare
  cases w.isBareReturn value with
  | error e => simp [Except.toOption]
  | ok bare => simp [Except.toOption]

theorem keeps_keptBody (w : Writer) (tree : List Node) : Keeps w tree (w.keptBody tree) := by
  unfold keptBody
  split
  · rename_i value implicit hlast
    obtain ⟨before, rfl⟩ := List.getLast?_eq_some_iff.mp hlast
    split
    · rename_i hbare
      rw [List.dropLast_concat]
      exact .inr ⟨value, implicit, rfl, isBare_iff.mp hbare⟩
    · exact .inl rfl
  · exact .inl rfl

theorem withoutFinalReturn_ok {tree kept : List Node} (h : w.withoutFinalReturn tree = .ok kept) :
    kept = w.keptBody tree := by
  unfold withoutFinalReturn at h
  split at h
  · rename_i value implicit hlast
    obtain ⟨bare, hbare, h⟩ := Outcome.bind_eq_ok.mp h
    have hisBare : w.isBare value = bare := by
      unfold isBare
      rw [hbare]
      rfl
    have hkept : w.keptBody tree = if bare then tree.dropLast else tree := by
      unfold keptBody
      rw [hlast]
      simp only [hisBare]
    rw [hkept]
    cases bare <;> cases h <;> rfl
  · rename_i hother
    cases h
    unfold keptBody
    split
    · rename_i value implicit hlast
      exact absurd hlast (hother value implicit)
    · rfl

/-- What is kept does not depend on declarations. -/
theorem keptBody_declared (arguments : Nat) (tree : List Node) :
    w.keptBody (declared arguments [] tree) = declared arguments [] (w.keptBody tree) := by
  obtain rfl | ⟨ns, n, rfl⟩ := List.eq_nil_or_concat tree
  · rw [keptBody, keptBody, declared]
    rfl
  rw [List.concat_eq_append]
  have hdeclared : declared arguments [] (ns ++ [n]) = declared arguments [] ns ++
      [declaredNode arguments ((nodesUses true ns).map (·.1)) n] := by
    rw [declared_append, declared, declared, List.nil_append]
  by_cases hret : ∃ value implicit, n = .ret value implicit
  · obtain ⟨value, implicit, rfl⟩ := hret
    have hsame : declaredNode arguments ((nodesUses true ns).map (·.1)) (.ret value implicit) =
        .ret value implicit := by
      unfold declaredNode
      rfl
    rw [hsame] at hdeclared
    unfold keptBody
    rw [hdeclared]
    simp only [List.getLast?_concat, List.dropLast_concat]
    split
    · rfl
    · exact hdeclared.symm
  · have hnot (m : Node) (hm : ∀ value implicit, m ≠ .ret value implicit) (before : List Node) :
        w.keptBody (before ++ [m]) = before ++ [m] := by
      unfold keptBody
      rw [List.getLast?_concat]
      split
      · rename_i value implicit heq
        exact absurd (Option.some.inj heq) (hm value implicit)
      · rfl
    rw [hnot n (fun value implicit heq => hret ⟨value, implicit, heq⟩), hdeclared,
      hnot _ fun value implicit heq => hret ⟨value, implicit, eq_ret_of_declaredNode heq⟩]

/-- **The lines of a body:** the declarations at the top, and what is kept of the body. -/
theorem body_eq {tree : List Node} {lines : List Line} (h : w.body depth tree = .ok lines) :
    ∃ declarations ls,
      w.lines depth ((hoisted w.scope.names.arguments tree).map .declaration) = .ok declarations ∧
      w.nodes depth (declared w.scope.names.arguments [] (w.keptBody tree)) = .ok ls ∧
      (lines = declarations ++ ls ∧ depth = 0 ∨ Filled w depth (declarations ++ ls) lines) := by
  unfold body at h
  dsimp only at h
  obtain ⟨kept, hkept, h⟩ := Outcome.bind_eq_ok.mp h
  obtain ⟨declarations, hdeclarations, h⟩ := Outcome.bind_eq_ok.mp h
  obtain ⟨ls, hls, h⟩ := Outcome.bind_eq_ok.mp h
  rw [withoutFinalReturn_ok hkept, keptBody_declared] at hls
  refine ⟨declarations, ls, hdeclarations, hls, ?_⟩
  split at h
  · rename_i hzero
    cases h
    exact .inl ⟨rfl, hzero⟩
  · exact .inr (filled_ok h)

theorem body_ok {tree : List Node} {lines : List Line} (h : w.body depth tree = .ok lines) :
    ∃ ns declarations ls, Keeps w tree ns ∧
      w.lines depth ((hoisted w.scope.names.arguments tree).map .declaration) = .ok declarations ∧
      w.nodes depth (declared w.scope.names.arguments [] ns) = .ok ls ∧
      (lines = declarations ++ ls ∧ depth = 0 ∨ Filled w depth (declarations ++ ls) lines) := by
  obtain ⟨declarations, ls, h⟩ := body_eq h
  exact ⟨w.keptBody tree, declarations, ls, keeps_keptBody w tree, h⟩

/-- The texts of the lines of a body are of what they say. -/
theorem worded_of_body {tree : List Node} {lines : List Line} (h : w.body depth tree = .ok lines) :
    ∀ l ∈ lines, w.Worded l := by
  obtain ⟨ns, declarations, ls, -, hdeclarations, hls, hlines⟩ := body_ok h
  have hlays := lays_of_nodes (P := fun _ => True) (fun _ _ => trivial) hls
  have hall := List.forall_mem_append.mpr ⟨worded_lines hdeclarations, hlays.worded⟩
  rcases hlines with ⟨rfl, -⟩ | hfilled
  · exact hall
  · exact hfilled.worded hall

end Writer

end Unscript.Source
