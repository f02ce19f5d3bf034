import Unscript.Proofs.Source.Lines

/-!
# What can be written

A body is written when every line of it has a text. Whether a statement declares what it assigns
makes no difference to that.

* `Source.Writer.Sayable`: a node whose lines all have texts.

Results:
* `Source.Writer.exists_nodes_ok`: nodes whose lines all have texts are written.
* `Source.Writer.exists_body_ok`: so are bodies.
-/

namespace Unscript.Source.Writer

open Node (Each)

variable {w : Writer} {c : Content}

/-! ## Lines -/

/-- Lines that each have a text are written. -/
theorem exists_line_ok (h : ∃ text, w.contentText c = .ok text) (d : Nat) :
    ∃ l, w.line d c = .ok l := by
  obtain ⟨text, htext⟩ := h
  exact ⟨⟨d, c, text⟩, by unfold line; rw [htext]; rfl⟩

theorem exists_lines_ok {cs : List Content} (h : ∀ c ∈ cs, ∃ text, w.contentText c = .ok text)
    (d : Nat) : ∃ ls, w.lines d cs = .ok ls :=
  Outcome.exists_mapM_ok fun c hc => exists_line_ok (h c hc) d

/-- What marks something always has a text. -/
theorem exists_contentText_of_isMark (h : c.isMark = true) : ∃ text, w.contentText c = .ok text := by
  cases c <;> first | exact ⟨_, rfl⟩ | cases h

theorem exists_filled_ok (w : Writer) (d : Nat) (ls : List Line) :
    ∃ suite, w.filled d ls = .ok suite := by
  unfold filled
  split
  · exact ⟨ls, rfl⟩
  · exact ⟨ls ++ [⟨d, .pass, "pass"⟩], rfl⟩

/-! ## Nodes -/

/-- A node whose lines all have texts. -/
structure Sayable (w : Writer) (n : Node) : Prop where
  contents : ∀ c, Carries n c → ∃ text, w.contentText c = .ok text
  comments : ∀ r, n = .raw r → ∃ cs, w.comments r = .ok cs

theorem Sayable.exists_block_ok {n : Node} {b : BlockNode} (h : Sayable w n)
    (hb : ∀ stmt ∈ b.statements, Carries n (.statement stmt)) (d : Nat) :
    ∃ ls, w.lines d (w.block b) = .ok ls := by
  refine exists_lines_ok (fun c hc => ?_) d
  rcases mem_block hc with hmark | ⟨stmt, hstmt, rfl⟩
  · exact exists_contentText_of_isMark hmark
  · exact h.contents _ (hb stmt hstmt)

mutual

/-- A node that can be said with all nodes inside it is written. -/
theorem exists_node_ok {n : Node} (h : Each w.Sayable [n]) (d : Nat) (word : String) :
    ∃ ls, w.node d word n = .ok ls := by
  cases n with
  | block b =>
    rw [node]
    exact h.head.exists_block_ok (fun _ hstmt => .statement hstmt) d
  | sequence body =>
    rw [node]
    exact exists_nodes_ok (Node.each_sequence.mp h).2 d
  | ifElse id c whenTrue whenFalse =>
    obtain ⟨hn, htrue, hfalse⟩ := Node.each_ifElse.mp h
    obtain ⟨head, hhead⟩ := exists_line_ok (hn.contents (.test word c) .test) d
    obtain ⟨inner, hinner⟩ := exists_nodes_ok htrue (d + 1)
    obtain ⟨arm, harm⟩ := exists_filled_ok w (d + 1) inner
    rw [node]
    simp only [hhead, hinner, harm, bind, Except.bind]
    split
    · exact ⟨_, rfl⟩
    split
    · obtain ⟨others, hothers⟩ := exists_chained_ok hfalse d
      rw [hothers]
      exact ⟨_, rfl⟩
    · obtain ⟨inner', hinner'⟩ := exists_nodes_ok hfalse (d + 1)
      obtain ⟨other, hother⟩ := exists_filled_ok w (d + 1) inner'
      rw [hinner']
      dsimp only
      rw [hother]
      exact ⟨_, rfl⟩
  | whileLoop c body header =>
    obtain ⟨hn, hbody⟩ := Node.each_whileLoop.mp h
    obtain ⟨labels, hlabels⟩ : ∃ ls,
        w.lines d ((header.map fun b => w.label b.id).getD []) = .ok ls := by
      refine exists_lines_ok (fun c hc => exists_contentText_of_isMark ?_) d
      cases header with
      | none => cases hc
      | some b => exact isMark_of_mem_label hc
    obtain ⟨head, hhead⟩ := exists_line_ok (hn.contents (.test "while" c) .again) d
    obtain ⟨inner, hinner⟩ := exists_nodes_ok hbody (d + 1)
    obtain ⟨suite, hsuite⟩ := exists_filled_ok w (d + 1) inner
    rw [node]
    simp only [hlabels, hhead, hinner, hsuite, bind, Except.bind]
    exact ⟨_, rfl⟩
  | forLoop iterator element iterable body setup latch =>
    obtain ⟨hn, hbody⟩ := Node.each_forLoop.mp h
    obtain ⟨before, hbefore⟩ := hn.exists_block_ok (b := setup) (fun _ hs => .setup hs) d
    obtain ⟨head, hhead⟩ := exists_line_ok (hn.contents _ .iteration) d
    obtain ⟨inner, hinner⟩ := exists_nodes_ok hbody (d + 1)
    obtain ⟨after, hafter⟩ := hn.exists_block_ok (b := latch) (fun _ hs => .latch hs) (d + 1)
    obtain ⟨suite, hsuite⟩ := exists_filled_ok w (d + 1) (inner ++ after)
    rw [node]
    simp only [hbefore, hhead, hinner, hafter, hsuite, bind, Except.bind]
    exact ⟨_, rfl⟩
  | matching id subject cs fallback tests =>
    obtain ⟨hn, hcases, hfallback⟩ := Node.each_matching.mp h
    obtain ⟨head, hhead⟩ := exists_line_ok (hn.contents _ .subject) d
    obtain ⟨arms, harms⟩ := exists_cases_ok hcases
      (fun c hc => hn.contents _ (.pattern hc)) (d + 1)
    obtain ⟨rest, hrest⟩ := exists_fallback_ok hfallback (d + 1)
    rw [node]
    simp only [hhead, harms, hrest, bind, Except.bind]
    exact ⟨_, rfl⟩
  | ret value implicit =>
    rw [node]
    exact exists_lines_ok (List.forall_mem_singleton.mpr (h.head.contents _ .ret)) d
  | leaveLoop =>
    rw [node]
    exact ⟨_, rfl⟩
  | nextTurn =>
    rw [node]
    exact ⟨_, rfl⟩
  | raw r =>
    obtain ⟨cs, hcs⟩ := h.head.comments r rfl
    obtain ⟨ls, hls⟩ := exists_lines_ok
      (fun c hc => exists_contentText_of_isMark (w := w) (isMark_of_comments hcs c hc)) d
    rw [node]
    simp only [hcs, bind, Except.bind]
    exact ⟨ls, hls⟩

/-- Nodes that can be said with all nodes inside them are written. -/
theorem exists_nodes_ok {ns : List Node} (h : Each w.Sayable ns) (d : Nat) :
    ∃ ls, w.nodes d ns = .ok ls := by
  cases ns with
  | nil =>
    rw [nodes]
    exact ⟨_, rfl⟩
  | cons n ns =>
    obtain ⟨hn, hns⟩ := Node.each_cons.mp h
    obtain ⟨head, hhead⟩ := exists_node_ok hn d "if"
    obtain ⟨rest, hrest⟩ := exists_nodes_ok hns d
    rw [nodes]
    simp only [hhead, hrest, bind, Except.bind]
    exact ⟨_, rfl⟩

theorem exists_chained_ok {ns : List Node} (h : Each w.Sayable ns) (d : Nat) :
    ∃ ls, w.chained d ns = .ok ls := by
  match ns with
  | [] =>
    rw [chained]
    exact ⟨_, rfl⟩
  | [n] =>
    rw [chained]
    exact exists_node_ok h d "elif"
  | n :: m :: ns =>
    rw [chained]
    · exact exists_chained_ok (Node.each_cons.mp h).2 d
    · exact nofun

theorem exists_cases_ok {cs : List (Expr × List Node)} (h : ∀ c ∈ cs, Each w.Sayable c.2)
    (hpatterns : ∀ c ∈ cs, ∃ text, w.contentText (.pattern c.1) = .ok text) (d : Nat) :
    ∃ ls, w.matchCases d cs = .ok ls := by
  match cs with
  | [] =>
    rw [matchCases]
    exact ⟨_, rfl⟩
  | (pattern, body) :: cs =>
    obtain ⟨hbody, h⟩ := List.forall_mem_cons.mp h
    obtain ⟨hpattern, hpatterns⟩ := List.forall_mem_cons.mp hpatterns
    obtain ⟨head, hhead⟩ := exists_line_ok hpattern d
    obtain ⟨inner, hinner⟩ := exists_nodes_ok hbody (d + 1)
    obtain ⟨suite, hsuite⟩ := exists_filled_ok w (d + 1) inner
    obtain ⟨rest, hrest⟩ := exists_cases_ok h hpatterns d
    rw [matchCases]
    dsimp only at hhead hinner
    simp only [hhead, hinner, hsuite, hrest, bind, Except.bind]
    exact ⟨_, rfl⟩

theorem exists_fallback_ok {body : Option (List Node)} (h : Each w.Sayable (body.getD []))
    (d : Nat) : ∃ ls, w.matchFallback d body = .ok ls := by
  match body with
  | none =>
    rw [matchFallback]
    exact ⟨_, rfl⟩
  | some body =>
    obtain ⟨head, hhead⟩ := exists_line_ok (w := w) ⟨_, rfl⟩ d (c := .wildcard)
    obtain ⟨inner, hinner⟩ := exists_nodes_ok h (d + 1)
    obtain ⟨suite, hsuite⟩ := exists_filled_ok w (d + 1) inner
    rw [matchFallback]
    dsimp only [Option.getD_some] at hinner
    simp only [hhead, hinner, hsuite, bind, Except.bind]
    exact ⟨_, rfl⟩

end

/-! ## Bodies -/

/-- A statement is written alike, whether it declares or not. -/
theorem exists_declaredStmt_ok {arguments : Nat} {seen : List Nat} {stmt : Stmt}
    (h : ∃ text, w.contentText (.statement stmt) = .ok text) :
    ∃ text, w.contentText (.statement (declaredStmt arguments seen stmt)) = .ok text := by
  unfold declaredStmt
  split
  · obtain ⟨text, htext⟩ := h
    obtain ⟨target, htarget, htext⟩ := Outcome.bind_eq_ok.mp htext
    obtain ⟨value, hvalue, -⟩ := Outcome.bind_eq_ok.mp htext
    exact ⟨_, Outcome.bind_eq_ok.mpr ⟨target, htarget, Outcome.bind_eq_ok.mpr ⟨value, hvalue, rfl⟩⟩⟩
  · exact h

theorem exists_declaredStmts_ok {arguments : Nat} {seen : List Nat} {ss : List Stmt}
    (h : ∀ stmt ∈ ss, ∃ text, w.contentText (.statement stmt) = .ok text) :
    ∀ stmt ∈ declaredStmts arguments seen ss, ∃ text, w.contentText (.statement stmt) = .ok text := by
  induction ss generalizing seen with
  | nil => exact fun _ hstmt => absurd hstmt List.not_mem_nil
  | cons stmt ss ih =>
    obtain ⟨hstmt, h⟩ := List.forall_mem_cons.mp h
    exact List.forall_mem_cons.mpr ⟨exists_declaredStmt_ok hstmt, ih h⟩

mutual

theorem sayable_declaredNode {arguments : Nat} {seen : List Nat} {n : Node}
    (h : Each w.Sayable [n]) : Each w.Sayable [declaredNode arguments seen n] := by
  cases n with
  | block b =>
    rw [declaredNode]
    refine Node.each_lone ⟨fun c hc => ?_, nofun⟩ rfl
    cases hc with
    | statement hstmt =>
      exact exists_declaredStmts_ok (fun _ hs => h.head.contents _ (.statement hs)) _ hstmt
  | sequence body =>
    rw [declaredNode]
    exact Node.each_sequence.mpr ⟨⟨nofun, nofun⟩, sayable_declared (Node.each_sequence.mp h).2⟩
  | forLoop iterator element iterable body setup latch =>
    obtain ⟨hn, hbody⟩ := Node.each_forLoop.mp h
    rw [declaredNode]
    refine .forLoop ⟨fun c hc => ?_, nofun⟩ hbody
    cases hc with
    | iteration => exact hn.contents _ .iteration
    | setup hstmt => exact exists_declaredStmts_ok (fun _ hs => hn.contents _ (.setup hs)) _ hstmt
    | latch hstmt => exact hn.contents _ (.latch hstmt)
  | _ =>
    rw [declaredNode]
    · exact h
    all_goals nofun

/-- Nodes that can be said can be said with their declarations marked. -/
theorem sayable_declared {arguments : Nat} {seen : List Nat} {ns : List Node}
    (h : Each w.Sayable ns) : Each w.Sayable (declared arguments seen ns) := by
  cases ns with
  | nil =>
    rw [declared]
    exact Node.each_nil
  | cons n ns =>
    obtain ⟨hn, hns⟩ := Node.each_cons.mp h
    rw [declared]
    exact (sayable_declaredNode hn).cons (sayable_declared hns)

end

/-- **A body that can be said is written.** -/
theorem exists_body_ok {tree : List Node} (h : Each w.Sayable tree) (depth : Nat) :
    ∃ lines, w.body depth tree = .ok lines := by
  replace h : Each w.Sayable (declared w.scope.names.arguments [] tree) := sayable_declared h
  obtain ⟨kept, hkept, hsayable⟩ : ∃ kept, w.withoutFinalReturn
      (declared w.scope.names.arguments [] tree) = .ok kept ∧ Each w.Sayable kept := by
    generalize declared w.scope.names.arguments [] tree = body at h
    unfold withoutFinalReturn
    split
    · rename_i value implicit hlast
      obtain ⟨before, rfl⟩ := List.getLast?_eq_some_iff.mp hlast
      obtain ⟨hbefore, hret⟩ := Node.each_append.mp h
      obtain ⟨text, htext⟩ := hret.head.contents _ .ret
      obtain ⟨bare, hbare, -⟩ := Outcome.bind_eq_ok.mp htext
      rw [hbare]
      cases bare with
      | false => exact ⟨_, rfl, h⟩
      | true => exact ⟨_, rfl, by rwa [if_pos rfl, List.dropLast_concat]⟩
    · exact ⟨body, rfl, h⟩
  have htop : ∀ c ∈ (hoisted w.scope.names.arguments tree).map Content.declaration,
      ∃ text, w.contentText c = .ok text := by
    intro c hc
    obtain ⟨slot, -, rfl⟩ := List.mem_map.mp hc
    exact ⟨_, rfl⟩
  obtain ⟨declarations, hdeclarations⟩ := exists_lines_ok htop depth
  obtain ⟨ls, hls⟩ := exists_nodes_ok hsayable depth
  unfold body
  dsimp only
  rw [hkept]
  simp only [hdeclarations, hls, bind, Except.bind]
  split
  · exact ⟨_, rfl⟩
  · exact exists_filled_ok w depth _

end Unscript.Source.Writer
