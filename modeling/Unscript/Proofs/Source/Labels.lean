import Unscript.Proofs.Registry.Concrete
import Unscript.Proofs.Source.Lines
import Unscript.Proofs.Structuring.Jumps
import Unscript.Source.Unit

/-!
# Labels

Code without structure says where control goes on by the names of blocks, and a comment labels each
of these blocks where its code is written. A block has one label then, unless its code was folded
into a comparison of a match, which is written without one.

* `Source.labelled`: the blocks that lines label.
* `Source.Writer.ownLabels`: the blocks that the lines of a node label of their own.

Results:
* `Source.Writer.Lays.labelled`: lines label what the nodes do.
* `Source.Writer.count_labels`: every block that is jumped to is labelled where it stands, but not in
  the comparisons of matches.
* `Source.labels_of_body`: which labels the jumps of a function find.
-/

namespace Unscript

open Node (Each gather)

namespace Source

/-- The block that a line labels. -/
def Content.label? : Content → Option Nat
  | .label id => some id
  | _ => none

/-- The blocks that lines label, in order. -/
def labelled (ls : List Line) : List Nat :=
  ls.filterMap (·.content.label?)

/-- The comments that label a block. -/
def labelTexts (ls : List Line) (id : Nat) : List String :=
  (ls.filter (·.content.label? == some id)).map (·.text)

/-- The nodes that are laid out at once. -/
def Part.nodes : Part → List Node
  | .node _ n => [n]
  | .body ns => ns
  | .cases cs => cs.flatMap (·.2)
  | .fallback last => last.getD []

namespace Writer

variable {w : Writer} {P : Node → Prop} {d depth : Nat} {c : Content} {l : Line} {ls : List Line}
  {x : Nat}

/-- A block, if it is labelled. -/
def marked (w : Writer) (id : Nat) : List Nat :=
  if w.targets.contains id then [id] else []

/-- The blocks that the lines of a node label, without those of the nodes inside it. -/
def ownLabels (w : Writer) : Node → List Nat
  | .block b => w.marked b.id
  | .whileLoop _ _ header => header.toList.flatMap fun b => w.marked b.id
  | .forLoop _ _ _ _ setup latch => w.marked setup.id ++ w.marked latch.id
  | .raw r => r.block.toList
  | _ => []

/-! ## Labels of lines -/

theorem labelled_append (a b : List Line) : labelled (a ++ b) = labelled a ++ labelled b :=
  List.filterMap_append

theorem labelled_lines {cs : List Content} (h : w.lines d cs = .ok ls) :
    labelled ls = cs.filterMap Content.label? := by
  rw [← (lines_ok h).1, List.filterMap_map]
  rfl

theorem labelled_cons (l : Line) (ls : List Line) :
    labelled (l :: ls) = l.content.label?.toList ++ labelled ls := by
  unfold labelled
  rw [List.filterMap_cons]
  cases l.content.label? <;> rfl

theorem labelled_head (h : w.line d c = .ok l) (hc : c.label? = none) (ls : List Line) :
    labelled (l :: ls) = labelled ls := by
  rw [labelled_cons, (line_ok h).2.1, hc]
  rfl

theorem Filled.labelled {suite : List Line} (h : Filled w d ls suite) :
    labelled suite = labelled ls := by
  obtain ⟨passes, rfl, hpasses⟩ := h.exists_append
  have hnone : Source.labelled passes = [] :=
    List.filterMap_eq_nil_iff.mpr fun l hl => by rw [(hpasses l hl).2]; rfl
  rw [labelled_append, hnone, List.append_nil]

theorem labels_label (w : Writer) (id : Nat) :
    (w.label id).filterMap Content.label? = w.marked id := by
  unfold label marked
  split <;> rfl

theorem labels_block (w : Writer) (b : BlockNode) :
    (w.block b).filterMap Content.label? = w.marked b.id := by
  have hnone : (b.statements.map Content.statement).filterMap Content.label? = [] := by
    rw [List.filterMap_map]
    exact List.filterMap_eq_nil_iff.mpr fun _ _ => rfl
  unfold block
  rw [List.filterMap_append, labels_label, hnone, List.append_nil]

/-- Code without structure is labelled by its block. -/
theorem labels_comments {r : RawNode} {cs : List Content} (h : w.comments r = .ok cs) :
    cs.filterMap Content.label? = r.block.toList := by
  have hremarks (texts : List String) : (texts.map Content.remark).filterMap Content.label? = [] := by
    rw [List.filterMap_map]
    exact List.filterMap_eq_nil_iff.mpr fun _ _ => rfl
  unfold comments at h
  dsimp only at h
  split at h
  · rename_i hblock
    cases h
    rw [hblock]
    rfl
  rename_i id hblock
  rw [hblock]
  split at h
  · cases h
    have hlisting := hremarks (r.instructions.map w.instruction)
    rw [List.map_map] at hlisting
    rw [List.filterMap_append]
    exact congrArg ([id] ++ ·) hlisting
  · obtain ⟨texts, -, h⟩ := Outcome.bind_eq_ok.mp h
    obtain ⟨value, -, h⟩ := Outcome.bind_eq_ok.mp h
    cases h
    rw [List.filterMap_append, hremarks]
    rfl

/-- Blocks that print nothing before a chained conditional label nothing. -/
theorem gather_ownLabels_blanks {blanks : List BlockNode}
    (h : ∀ b ∈ blanks, w.targets.contains b.id = false) :
    gather w.ownLabels (blanks.map .block) = [] := by
  induction blanks with
  | nil => rfl
  | cons b blanks ih =>
    obtain ⟨hb, h⟩ := List.forall_mem_cons.mp h
    rw [List.map_cons, Node.gather_cons, ih h, Node.gather_lone _ rfl]
    show w.marked b.id ++ [] = []
    unfold marked
    rw [hb]
    rfl

/-- **Lines label what the nodes do.** A block that advances an iteration is labelled after its
body. -/
theorem Lays.labelled {p : Part} (h : Lays w P d p ls) :
    (labelled ls).Perm (gather w.ownLabels p.nodes) := by
  induction h with
  | block _ h =>
    rw [labelled_lines h, labels_block]
    exact .of_eq (Node.gather_lone w.ownLabels (n := .block _) rfl).symm
  | sequence _ _ ih => exact ih.trans (.of_eq (Node.gather_sequence w.ownLabels _).symm)
  | lone _ hhead _ harm ih =>
    rw [labelled_head hhead rfl, harm.labelled]
    refine ih.trans (.of_eq ?_)
    exact ((Node.gather_ifElse _ _ _ _ _).trans (List.append_nil _)).symm
  | chained _ hhead _ harm hblank _ ih ihnext =>
    rw [List.cons_append, labelled_head hhead rfl, labelled_append, harm.labelled]
    refine (ih.append ihnext).trans (.of_eq ?_)
    show _ = gather w.ownLabels [.ifElse _ _ _ _]
    rw [Node.gather_ifElse, Node.gather_append,
      gather_ownLabels_blanks fun b hb => (hblank b hb).2]
    rfl
  | @divided d _ _ _ _ _ _ _ _ _ _ _ hhead _ harm _ _ hother ih ih' =>
    have hseparator : w.line d .otherwise = .ok ⟨d, .otherwise, "else:"⟩ := rfl
    rw [List.cons_append, labelled_head hhead rfl, labelled_append, harm.labelled,
      labelled_head hseparator rfl, hother.labelled]
    exact (ih.append ih').trans (.of_eq (Node.gather_ifElse w.ownLabels _ _ _ _).symm)
  | @whileLoop _ _ _ _ header _ _ _ _ _ hlabels hhead _ hsuite ih =>
    rw [labelled_append, labelled_lines hlabels, labelled_head hhead rfl, hsuite.labelled]
    refine (ih.append_left _).trans (.of_eq ?_)
    show _ = gather w.ownLabels [.whileLoop _ _ _]
    rw [Node.gather_whileLoop]
    cases header with
    | none => rfl
    | some b =>
      show (w.label b.id).filterMap Content.label? ++ _ = (w.marked b.id ++ []) ++ _
      rw [labels_label, List.append_nil]
      rfl
  | forLoop _ hsetup hhead _ hlatch hsuite ih =>
    rw [labelled_append, labelled_lines hsetup, labels_block, labelled_head hhead rfl,
      hsuite.labelled, labelled_append, labelled_lines hlatch, labels_block]
    refine (((ih.append_right _).trans List.perm_append_comm).append_left _).trans (.of_eq ?_)
    show _ = gather w.ownLabels [.forLoop _ _ _ _ _ _]
    rw [Node.gather_forLoop, ← List.append_assoc]
    rfl
  | matching _ hhead _ _ ih ih' =>
    rw [List.cons_append, labelled_head hhead rfl, labelled_append]
    refine (ih.append ih').trans (.of_eq ?_)
    show _ = gather w.ownLabels [.matching _ _ _ _ _]
    rw [Node.gather_matching, ← Node.gather_flatMap]
    rfl
  | ret _ h =>
    rw [labelled_head h rfl]
    exact .refl _
  | leaveLoop => exact .refl _
  | nextTurn => exact .refl _
  | raw _ hcomments h =>
    rw [labelled_lines h, labels_comments hcomments]
    exact .of_eq (Node.gather_lone w.ownLabels (n := .raw _) rfl).symm
  | nil => exact .refl _
  | cons _ _ ih ih' =>
    rw [labelled_append]
    exact (ih.append ih').trans (.of_eq (Node.gather_cons _ _ _).symm)
  | noCase => exact .refl _
  | case _ hhead _ hsuite _ ih ih' =>
    rw [List.cons_append, labelled_head hhead rfl, labelled_append, hsuite.labelled]
    refine (ih.append ih').trans (.of_eq ?_)
    exact (Node.gather_append _ _ _).symm
  | absent => exact .refl _
  | present hhead _ hsuite ih =>
    rw [labelled_head hhead rfl, hsuite.labelled]
    exact ih

/-! ## Labels of bodies -/

mutual

theorem gather_ownLabels_declaredNode (arguments : Nat) (seen : List Nat) (n : Node) :
    gather w.ownLabels [declaredNode arguments seen n] = gather w.ownLabels [n] := by
  cases n with
  | sequence body =>
    rw [declaredNode, Node.gather_sequence, Node.gather_sequence,
      gather_ownLabels_declared arguments seen body]
    rfl
  | forLoop iterator element iterable body setup latch =>
    rw [declaredNode, Node.gather_forLoop, Node.gather_forLoop]
    rfl
  | _ => rfl

/-- Marking declarations labels nothing else. -/
theorem gather_ownLabels_declared (arguments : Nat) (seen : List Nat) (ns : List Node) :
    gather w.ownLabels (declared arguments seen ns) = gather w.ownLabels ns := by
  cases ns with
  | nil => rfl
  | cons n ns =>
    rw [declared, Node.gather_cons, Node.gather_cons _ n, gather_ownLabels_declaredNode,
      gather_ownLabels_declared]

end

/-- The lines of a body label what its nodes do. -/
theorem labelled_of_body {tree : List Node} {lines : List Line} (h : w.body depth tree = .ok lines) :
    (labelled lines).Perm (gather w.ownLabels tree) := by
  obtain ⟨ns, declarations, ls, hkeeps, hdeclarations, hls, hlines⟩ := body_ok h
  have hlays := (lays_of_nodes (P := fun _ => True) (fun _ _ => trivial) hls).labelled
  have htree : gather w.ownLabels ns = gather w.ownLabels tree := by
    rcases hkeeps with rfl | ⟨value, implicit, rfl, -⟩
    · rfl
    · rw [Node.gather_append]
      exact (List.append_nil _).symm
  have hnone : labelled declarations = [] := by
    rw [labelled_lines hdeclarations, List.filterMap_map]
    exact List.filterMap_eq_nil_iff.mpr fun _ _ => rfl
  have heq : labelled lines = labelled ls := by
    rcases hlines with ⟨rfl, -⟩ | hfilled
    · rw [labelled_append, hnone, List.nil_append]
    · rw [hfilled.labelled, labelled_append, hnone, List.nil_append]
  rw [heq]
  exact hlays.trans (.of_eq ((gather_ownLabels_declared _ _ ns).trans htree))

/-- A block that is jumped to is labelled by the node that holds it, but not in a comparison. -/
theorem count_ownLabels (hx : w.targets.contains x = true) (n : Node) :
    (w.ownLabels n).count x + n.tests.count x = n.ownBlocks.count x := by
  have hmarked (id : Nat) : (w.marked id).count x = [id].count x := by
    unfold marked
    split
    · rfl
    · rename_i hid
      rw [List.count_singleton, List.count_nil, beq_false_of_ne]
      · rfl
      · rintro rfl
        exact hid hx
  cases n with
  | block b => exact hmarked b.id
  | whileLoop c body header =>
    cases header with
    | none => rfl
    | some b => exact (congrArg (List.count x) (List.append_nil _)).trans (hmarked b.id)
  | forLoop iterator element iterable body setup latch =>
    show (w.marked setup.id ++ w.marked latch.id).count x = ([setup.id] ++ [latch.id]).count x
    rw [List.count_append, List.count_append, hmarked, hmarked]
  | matching id subject cs fallback tests => exact Nat.zero_add _
  | _ => rfl

/-- **Every block that is jumped to is labelled** where it stands, but not in the comparisons of
matches. -/
theorem count_labels (hx : w.targets.contains x = true) (ns : List Node) :
    (gather w.ownLabels ns).count x + (gather Node.tests ns).count x =
      (gather Node.ownBlocks ns).count x := by
  unfold gather
  induction Node.preorderAll ns with
  | nil => rfl
  | cons n nodes ih =>
    have hn := count_ownLabels hx n
    simp only [List.flatMap_cons, List.count_append]
    omega

/-- A line that labels a block does so by its name. -/
theorem Worded.text_of_label {id : Nat} (h : w.Worded l) (hid : l.content.label? = some id) :
    l.text = "# label " ++ w.labelName id ++ ":" := by
  unfold Worded at h
  cases hc : l.content with
  | label id' =>
    rw [hc] at h hid
    cases hid
    exact (Except.ok.inj h).symm
  | _ =>
    rw [hc] at hid
    cases hid

theorem labelTexts_cons (l : Line) (ls : List Line) (x : Nat) : labelTexts (l :: ls) x =
    if l.content.label? = some x then l.text :: labelTexts ls x else labelTexts ls x := by
  unfold labelTexts
  by_cases hl : l.content.label? = some x
  · rw [if_pos hl, List.filter_cons_of_pos (by simp [hl]), List.map_cons]
  · rw [if_neg hl, List.filter_cons_of_neg (by simpa using hl)]

/-- A block is labelled by comments with its name. -/
theorem labelTexts_of_body {tree : List Node} {lines : List Line}
    (h : w.body depth tree = .ok lines) (x : Nat) : labelTexts lines x =
      List.replicate ((gather w.ownLabels tree).count x) ("# label " ++ w.labelName x ++ ":") := by
  have hworded := worded_of_body h
  rw [← (labelled_of_body h).count_eq]
  clear h
  induction lines with
  | nil => rfl
  | cons l lines ih =>
    obtain ⟨hl, hworded⟩ := List.forall_mem_cons.mp hworded
    specialize ih hworded
    rw [labelTexts_cons, labelled_cons, List.count_append, ih]
    cases hlabel : l.content.label? with
    | none => rw [if_neg nofun, Option.toList_none, List.count_nil, Nat.zero_add]
    | some id =>
      rw [Option.toList_some, List.count_singleton]
      by_cases hid : id = x
      · rw [if_pos (congrArg some hid), if_pos (beq_iff_eq.mpr hid), Nat.add_comm,
          List.replicate_succ, hl.text_of_label hlabel, hid]
      · rw [if_neg (mt Option.some.inj hid), if_neg (mt beq_iff_eq.mp hid), Nat.zero_add]

end Writer

/-! ## Labels of functions -/

/-- Where nodes jump to is what their raw nodes say. -/
theorem mem_jumps_iff {body : List Node} {x : Nat} :
    x ∈ gather Node.jumps body ↔ ∃ r ∈ Node.raws body, x ∈ r.gotos := by
  have heq : gather Node.jumps body = (Node.raws body).flatMap (·.gotos) := by
    rw [Node.raws_eq_gather]
    unfold gather
    rw [List.flatMap_assoc]
    refine List.flatMap_congr fun n _ => ?_
    cases n with
    | raw r => exact (List.append_nil _).symm
    | _ => rfl
  rw [heq, List.mem_flatMap]

section Functions

variable {d : Dialect} {options : StructureOptions} {is : List Instruction} {length : Option Nat}
  {s : Structured} {style : Style} {h : Header} {pool : List Constant} {depth : Nat}
  {lines : List Line}

/-- **Which labels the jumps of a function find.** The jumps are those of the raw nodes of its tree.
Where one leads to something else than the end of the function, it leads to a block of the
function. One comment labels the block, unless it became a comparison of a match, and then it
follows a loop. -/
theorem labels_of_body (hs : (Structured.ofInstructions d options is length).value = .ok s)
    (hlines : (writerOf style h pool (.ofStructured s)).body depth s.body = .ok lines) :
    (∀ x, x ∈ s.gotoTargets ↔ ∃ r ∈ Node.raws s.body, x ∈ r.gotos) ∧
    ∀ x ∈ s.gotoTargets, s.exit ≠ some x →
      (∃ flow, Flow.build is length = .ok flow ∧ x ∈ flow.realBlocks ∧
        (x ∈ gather Node.tests s.body → ∃ l ∈ flow.loops, flow.loopExit? l = some x)) ∧
      labelTexts lines x =
        if x ∈ gather Node.tests s.body then [] else [s!"# label block_{x}:"] := by
  obtain rfl | ⟨flow, hbuild, hmaps⟩ := Structured.maps_of_ofInstructions hs
  · exact ⟨fun x => ⟨fun hx => absurd hx (BlockSet.not_mem_empty x), nofun⟩,
      fun x hx => absurd hx (BlockSet.not_mem_empty x)⟩
  refine ⟨fun x => (hmaps.targets x).trans mem_jumps_iff, fun x hx hexit => ?_⟩
  have hlt : x < flow.exit := by
    have hle := hmaps.le x hx
    have hne : flow.exit ≠ x := fun heq => hexit (heq ▸ hmaps.exit)
    omega
  refine ⟨⟨flow, hbuild, List.mem_range.mpr hlt, hmaps.apart x hx⟩, ?_⟩
  have hname : (writerOf style h pool (.ofStructured s)).labelName x = s!"block_{x}" := if_neg hexit
  have htarget : (writerOf style h pool (.ofStructured s)).targets.contains x = true :=
    List.contains_iff_mem.mpr (BlockSet.mem_toList.mpr hx)
  have hcount := Writer.count_labels htarget s.body
  rw [hmaps.once x hlt] at hcount
  rw [Writer.labelTexts_of_body hlines, hname]
  split
  · rename_i htests
    have hpos := List.count_pos_iff.mpr htests
    rw [show (gather (Writer.ownLabels _) s.body).count x = 0 by omega]
    rfl
  · rename_i htests
    rw [List.count_eq_zero_of_not_mem htests, Nat.add_zero] at hcount
    rw [hcount]
    rfl

end Functions

/-! ## A jump to a comparison -/

/-- The code of a function of the first dialect with matches: a loop in a loop, which both end at the
second comparison of a chain. The inner loop holds the chain, and the outer loop jumps into it. -/
def foldedTarget : List UInt8 :=
  [1, 0, 0, 0, 0, 0, 1, 0, 0, 0, 102, 0, 1, 0, 4, 0, 0, 1, 0, 2, 1, 0, 0, 0, 0, 0, 0, 0, 76, 0,
    0, 0, 41, 41, 0, 0, 0, 6, 1, 0, 0, 12, 43, 20, 0, 0, 0, 41, 69, 0, 0, 0, 6, 1, 0, 0, 12, 43,
    69, 0, 0, 0, 41, 69, 0, 0, 0, 6, 43, 69, 0, 0, 0, 41, 71, 0, 0, 0, 50, 6, 1, 0, 0, 12, 43, 5,
    0, 0, 0, 6, 43, 35, 0, 0, 0, 6, 42, 46, 0, 0, 0, 6, 47, 41, 46, 0, 0, 0, 0, 0]

/-- The writer of a function of the first dialect with matches. -/
def matchingWriter (f : Function) (s : Structured) : Writer :=
  writerOf ⟨Registry.firstMatching, "\t", []⟩ f.header f.constants (.ofStructured s)

theorem foldedTarget_tree : ∃ f ∈ (Script.decode Registry.firstMatching foldedTarget).functions,
    f.complete ∧ ∃ s, (Structured.ofInstructions Registry.firstMatching {} f.instructions
      (some f.codeLength)).value = .ok s ∧
      ∃ lines, (matchingWriter f s).body 1 s.body = .ok lines ∧ s.exit = some 12 ∧
        1 ∈ s.gotoTargets ∧ 1 ∈ gather Node.tests s.body ∧
        6 ∈ s.gotoTargets ∧ 6 ∉ gather Node.tests s.body := by
  have hfound : ((Script.decode Registry.firstMatching foldedTarget).functions.any fun f =>
      f.complete && (Structured.ofInstructions Registry.firstMatching {} f.instructions
        (some f.codeLength)).value.toOption.any fun s =>
          ((matchingWriter f s).body 1 s.body).toOption.any fun _ => s.exit == some 12 &&
            s.gotoTargets.contains 1 && (gather Node.tests s.body).contains 1 &&
            s.gotoTargets.contains 6 && !(gather Node.tests s.body).contains 6) = true := by
    decide +kernel
  obtain ⟨f, hf, hfound⟩ := List.any_eq_true.mp hfound
  simp only [Bool.and_eq_true, Option.any_eq_true, beq_iff_eq, Bool.not_eq_true',
    List.contains_iff_mem] at hfound
  obtain ⟨hcomplete, s, hs, lines, hlines, ⟨⟨⟨hexit, hone⟩, htests⟩, hsix⟩, hapart⟩ := hfound
  exact ⟨f, hf, hcomplete, s, Outcome.toOption_eq_some.mp hs, lines,
    Outcome.toOption_eq_some.mp hlines, hexit, hone, htests, hsix, fun hmem =>
      Bool.false_ne_true (hapart.symm.trans (List.contains_iff_mem.mpr hmem))⟩

/-- A jump that finds its label, and one that finds none. -/
theorem labels_of_body_foldedTarget :
    ∃ f ∈ (Script.decode Registry.firstMatching foldedTarget).functions,
      ∃ s, (Structured.ofInstructions Registry.firstMatching {} f.instructions
        (some f.codeLength)).value = .ok s ∧
        ∃ lines, (matchingWriter f s).body 1 s.body = .ok lines ∧
          labelTexts lines 6 = ["# label block_6:"] ∧ labelTexts lines 1 = [] := by
  obtain ⟨f, hf, -, s, hs, lines, hlines, hexit, hone, htests, hsix, hapart⟩ := foldedTarget_tree
  have hlabels := (labels_of_body hs hlines).2
  have hfound := (hlabels 6 hsix (by simp [hexit])).2
  have hnone := (hlabels 1 hone (by simp [hexit])).2
  rw [if_neg hapart] at hfound
  rw [if_pos htests] at hnone
  exact ⟨f, hf, s, hs, lines, hlines, hfound, hnone⟩

/-- Not every jump finds a label, and some lead to comparisons of matches. -/
theorem not_forall_labelTexts :
    ¬ ∀ d ∈ Registry.standard.dialects, ∀ payload, ∀ f ∈ (Script.decode d payload).functions,
      f.complete → ∀ s, (Structured.ofInstructions d {} f.instructions
        (some f.codeLength)).value = .ok s →
      ∀ lines, (writerOf ⟨d, "\t", []⟩ f.header f.constants (.ofStructured s)).body 1 s.body =
          .ok lines →
        ∀ x ∈ s.gotoTargets, s.exit ≠ some x →
          labelTexts lines x = [s!"# label block_{x}:"] ∧ x ∉ gather Node.tests s.body := by
  intro h
  obtain ⟨f, hf, hcomplete, s, hs, lines, hlines, hexit, hone, htests, -, -⟩ := foldedTarget_tree
  exact (h _ Registry.firstMatching_mem foldedTarget f hf hcomplete s hs lines hlines 1 hone
    (by simp [hexit])).2 htests

end Source

end Unscript
