import Unscript.Proofs.Source.Uses
import Unscript.Proofs.Source.Writing
import Unscript.Proofs.Structuring.Origin
import Unscript.Proofs.Structuring.Reconstruction
import Unscript.Source.Unit

/-!
# Scopes of declarations

A local that is no argument is declared once: at the top, or by the line that assigns it first. A
local whose first use is as the element of an iteration has no declaration but the heads of
iterations over it, which are in force inside the iterations only.

* `Source.InScope`: a line stands in the scope of a declaration.
* `Source.Leads`: a slot is first used as an element.

Results:
* `Source.inScope_iff`: no slot is declared twice, and lines stand in the scope of declarations of
  what they take for declared, unless it is first used as an element and they stand in no iteration
  over it.
-/

namespace Unscript.Source

open Node (Each)

/-! ## Scopes -/

/-- A line stands in an iteration over a slot: all lines after the head of it stand deeper. -/
def Enclosed (before : List Line) (l : Line) (k : Nat) : Prop :=
  ∃ outside head inside, before = outside ++ head :: inside ∧
    (∃ iterable, head.content = .iteration k iterable) ∧ ∀ x ∈ inside ++ [l], head.depth < x.depth

/-- A line stands in the scope of a declaration of a slot: one before it at the depth of the body,
or the head of an iteration that it stands in. -/
def InScope (depth : Nat) (before : List Line) (l : Line) (k : Nat) : Prop :=
  (∃ x ∈ before, x.depth = depth ∧ x.content.declares? = some k) ∨ Enclosed before l k

/-- The first line that uses a slot is the head of an iteration, which has it as its element. -/
def Leads (depth : Nat) (lines : List Line) (k : Nat) : Prop :=
  ∃ before head after iterable, lines = before ++ head :: after ∧
    k ∉ (before.flatMap (·.uses depth)).map (·.1) ∧ head.content = .iteration k iterable ∧
      k ∉ iterable.slotsRead

section Scopes

variable {depth k : Nat} {lines : List Line} {l : Line}

/-- What a line takes for declared it uses. -/
theorem Line.mem_uses_of_mem_needs (h : k ∈ l.content.needs) :
    k ∈ (l.uses depth).map (·.1) := by
  have hexpr {e : Expr} (h : k ∈ e.slotsRead) : k ∈ (exprUses e).map (·.1) := by
    simpa [exprUses] using h
  unfold Line.uses
  cases hc : l.content with
  | statement stmt =>
    rw [hc, Content.needs, List.mem_append] at h
    rw [Content.uses, stmtUses, List.map_append, List.mem_append]
    refine h.imp (fun h => by simpa using h) fun h => ?_
    split at h
    · cases h
    · cases hassigned : stmt.assigned? with
      | none => rw [hassigned] at h; cases h
      | some slot =>
        rw [hassigned] at h
        simpa using h
  | iteration element e =>
    rw [hc] at h
    rw [Content.uses, List.map_append]
    exact List.mem_append_left _ (hexpr h)
  | test _ e | subject e | pattern e => rw [hc] at h; exact hexpr h
  | ret value =>
    rw [hc] at h
    cases value with
    | none => cases h
    | some e => exact hexpr h
  | _ => rw [hc] at h; cases h

/-- A line that declares what it assigns first does not take it for declared. -/
theorem Line.not_mem_needs (hdeclares : l.content.declares? = some k)
    (h : (l.uses depth).lookup k = some .assigned) : k ∉ l.content.needs := by
  intro hneeds
  unfold Line.uses at h
  cases hc : l.content with
  | statement stmt =>
    rw [hc, Content.declares?] at hdeclares
    rw [hc, Content.needs] at hneeds
    rw [hc, Content.uses, lookup_stmtUses] at h
    split at hdeclares
    · rename_i hmarked
      rw [if_pos hmarked, List.append_nil] at hneeds
      rw [if_pos hneeds] at h
      cases h
    · cases hdeclares
  | declaration slot => rw [hc] at hneeds; cases hneeds
  | _ => rw [hc] at hdeclares; cases hdeclares

/-- A line that uses a slot first as an element is the head of an iteration over it. -/
theorem Line.lookup_uses_iterated : (l.uses depth).lookup k = some .iterated ↔
    ∃ iterable, l.content = .iteration k iterable ∧ k ∉ iterable.slotsRead := by
  unfold Line.uses
  cases hc : l.content with
  | iteration element e =>
    rw [Content.uses, exprUses, lookup_reads, lookup_single]
    by_cases hk : element = k
    · by_cases hread : k ∈ e.slotsRead <;> simp [hread, hk]
    · simp [hk]
  | statement stmt =>
    rw [Content.uses, lookup_stmtUses]
    by_cases hread : k ∈ stmt.reads
    · simp [hread]
    · by_cases htop : l.depth == depth <;> simp [hread, htop]
  | test _ e | subject e | pattern e => simp [Content.uses, lookup_exprUses]
  | ret value => cases value <;> simp [Content.uses, lookup_exprUses]
  | _ => simp [Content.uses]

theorem leads_iff :
    Leads depth lines k ↔ (lines.flatMap (·.uses depth)).lookup k = some .iterated := by
  constructor
  · rintro ⟨before, head, after, iterable, rfl, hnew, hhead⟩
    have hfirst : (head.uses depth).lookup k = some .iterated :=
      Line.lookup_uses_iterated.mpr ⟨iterable, hhead⟩
    rw [List.flatMap_append, List.flatMap_cons, List.lookup_append, List.lookup_append,
      lookup_eq_none.mpr hnew, hfirst]
    rfl
  · intro h
    induction lines with
    | nil => cases h
    | cons l lines ih =>
      rw [List.flatMap_cons, List.lookup_append] at h
      cases hl : (l.uses depth).lookup k with
      | some u =>
        rw [hl] at h
        cases h
        obtain ⟨iterable, hc, hk⟩ := Line.lookup_uses_iterated.mp hl
        exact ⟨[], l, lines, iterable, rfl, List.not_mem_nil, hc, hk⟩
      | none =>
        rw [hl] at h
        obtain ⟨before, head, after, iterable, rfl, hnew, hhead⟩ := ih h
        refine ⟨l :: before, head, after, iterable, rfl, ?_, hhead⟩
        rw [List.flatMap_cons, List.map_append, List.mem_append, not_or]
        exact ⟨lookup_eq_none.mp hl, hnew⟩

/-- The first line that uses a slot stands before every other one that does. -/
theorem mem_of_first {first before after rest : List Line} {x : Line}
    (h : first ++ x :: rest = before ++ l :: after)
    (hfirst : k ∉ (first.flatMap (·.uses depth)).map (·.1))
    (hl : k ∈ (l.uses depth).map (·.1)) : x ∈ before ∨ x = l := by
  rcases List.append_eq_append_iff.mp h with ⟨between, rfl, hrest⟩ | ⟨between, rfl, hrest⟩
  · cases between with
    | nil => exact .inr (List.cons.inj hrest).1
    | cons y between =>
      obtain rfl := (List.cons.inj hrest).1
      exact .inl (List.mem_append_right _ List.mem_cons_self)
  · cases between with
    | nil => exact .inr (List.cons.inj hrest).1.symm
    | cons y between =>
      obtain rfl := (List.cons.inj hrest).1
      refine absurd ?_ hfirst
      rw [List.flatMap_append, List.flatMap_cons, List.map_append, List.map_append]
      exact List.mem_append_right _ (List.mem_append_left _ hl)

end Scopes

/-! ## Functions -/

section Functions

variable {d : Dialect} {payload : List UInt8} {bounds : Bounds} {f : Function}
  {options : StructureOptions} {length : Option Nat} {s : Structured} {w : Writer} {depth : Nat}
  {lines : List Line}

theorem constant_of_drawn {p : Plan} {n : Node} (h : Structuring.Drawn p n) : ConstantCases n := by
  cases n with
  | sequence => exact h
  | matching id subject cs fallback tests =>
    intro c hc
    obtain ⟨e, -, hcompared⟩ := h.2.1 c hc
    exact Structuring.isConst_of_comparison? hcompared
  | _ => trivial

theorem undeclaring_of_drawn {p : Plan} {n : Node}
    (hlift : ∀ id l, p.lift id = .ok l → ∀ stmt ∈ l.statements, stmt.declares = false)
    (h : Structuring.Drawn p n) : Undeclaring n := by
  have hblock {b : BlockNode} (hb : p.Lifts b) : ∀ stmt ∈ b.statements, stmt.declares = false := by
    obtain ⟨l, hl, hstatements⟩ := hb
    rw [hstatements]
    exact hlift _ l hl
  intro stmt hsays
  cases hsays with
  | statement hstmt => exact hblock h _ hstmt
  | setup hstmt => exact hblock h.2.1 _ hstmt
  | latch hstmt => exact hblock h.2.2 _ hstmt

/-- The tree of a decoded function declares nothing by itself, and compares with constants only. -/
theorem undeclaring_of_ofInstructions (hd : d.Registered)
    (hf : f ∈ (Script.decode d payload bounds).functions)
    (hs : (Structured.ofInstructions d options f.instructions length).value = .ok s) :
    Each Undeclaring s.body ∧ Each ConstantCases s.body := by
  rcases Structured.drawn_of_ofInstructions hs with hnil | ⟨flow, hbuild, hdrawn⟩
  · rw [hnil]
    exact ⟨Node.each_nil, Node.each_nil⟩
  · obtain ⟨starts, hcut⟩ := Structuring.exists_cut_of_build hbuild
    refine ⟨hdrawn.mono fun n => undeclaring_of_drawn fun id l hl => ?_,
      hdrawn.mono fun n => constant_of_drawn⟩
    refine Lifted.declares_eq_false (fun i hi => ?_) hl
    exact Dialect.Decodes.exists_balanced hd ⟨payload, bounds, f, hf, hcut.mem_instructions hi⟩

/-- A return that has nothing to say uses no slot. -/
theorem nodeUses_of_isBareReturn {value : Option Expr} (h : w.isBareReturn value = .ok true)
    (implicit : Bool) : nodeUses true (.ret value implicit) = [] := by
  unfold Writer.isBareReturn at h
  split at h
  · rw [nodeUses]
  · rw [nodeUses]
    rfl
  · cases h

theorem nodesUses_of_keeps {tree ns : List Node} (h : w.Keeps tree ns) :
    nodesUses true ns = nodesUses true tree := by
  rcases h with rfl | ⟨value, implicit, rfl, hbare⟩
  · rfl
  · rw [Writer.nodesUses_append, Writer.nodesUses_singleton, nodeUses_of_isBareReturn hbare,
      List.append_nil]

theorem each_of_keeps {P : Node → Prop} {tree ns : List Node} (h : w.Keeps tree ns)
    (hP : Each P tree) : Each P ns := by
  rcases h with rfl | ⟨value, implicit, rfl, -⟩
  · exact hP
  · exact (Node.each_append.mp hP).1

/-- The lines of a body: declarations, lines that declare what they assign first, and perhaps a
`pass`. -/
structure Opens (arguments depth : Nat) (tree : List Node) (declarations ls passes : List Line) :
    Prop where
  contents : declarations.map (·.content) = (hoisted arguments tree).map .declaration
  depths : ∀ l ∈ declarations, l.depth = depth
  uses : ls.flatMap (·.uses depth) = nodesUses true tree
  marks : Marks arguments depth [] ls
  passes : ∀ l ∈ passes, l.content = .pass

theorem opens_of_body {tree : List Node} (hdeclares : Each Undeclaring tree)
    (hconst : Each ConstantCases tree) (h : w.body depth tree = .ok lines) :
    ∃ declarations ls passes, lines = declarations ++ ls ++ passes ∧
      Opens w.scope.names.arguments depth tree declarations ls passes := by
  obtain ⟨ns, declarations, ls, hkeeps, hdeclarations, hls, hlines⟩ := Writer.body_ok h
  obtain ⟨huses, hmarks⟩ := Writer.marks_nodes (each_of_keeps hkeeps hdeclares)
    (each_of_keeps hkeeps hconst) hls
  obtain ⟨hcontents, hdepths⟩ := Writer.lines_ok hdeclarations
  rw [nodesUses_of_keeps hkeeps] at huses
  rcases hlines with ⟨rfl, -⟩ | hfilled
  · exact ⟨declarations, ls, [], (List.append_nil _).symm,
      hcontents, hdepths, huses, hmarks, fun _ hl => absurd hl List.not_mem_nil⟩
  · obtain ⟨passes, rfl, hpasses⟩ := hfilled.exists_append
    exact ⟨declarations, ls, passes, rfl, hcontents, hdepths, huses, hmarks,
      fun l hl => (hpasses l hl).2⟩

namespace Opens

variable {arguments : Nat} {tree : List Node} {declarations ls passes : List Line}
  (h : Opens arguments depth tree declarations ls passes)

include h

/-- What stands at the top is what the declarations declare. -/
theorem filterMap_declarations :
    (declarations.filterMap fun l => l.content.declares?) = hoisted arguments tree := by
  have hmap := congrArg (List.filterMap Content.declares?) h.contents
  rw [List.filterMap_map, List.filterMap_map] at hmap
  exact hmap.trans List.filterMap_some

theorem filterMap_passes : (passes.filterMap fun l => l.content.declares?) = [] :=
  List.filterMap_eq_nil_iff.mpr fun l hl => by rw [h.passes l hl]; rfl

theorem flatMap_uses_declarations : declarations.flatMap (·.uses depth) = [] := by
  refine List.flatMap_eq_nil_iff.mpr fun l hl => ?_
  have hmem := List.mem_map_of_mem (f := (·.content)) hl
  rw [h.contents] at hmem
  obtain ⟨slot, -, hslot⟩ := List.mem_map.mp hmem
  unfold Line.uses
  rw [← hslot]
  rfl

/-- The uses of all lines are those of the tree. -/
theorem flatMap_uses :
    (declarations ++ ls ++ passes).flatMap (·.uses depth) = nodesUses true tree := by
  have hpasses : passes.flatMap (·.uses depth) = [] :=
    List.flatMap_eq_nil_iff.mpr fun l hl => by unfold Line.uses; rw [h.passes l hl]; rfl
  rw [List.flatMap_append, List.flatMap_append, h.flatMap_uses_declarations, hpasses, h.uses,
    List.append_nil, List.nil_append]

/-- No slot has two declarations. -/
theorem nodup : ((declarations ++ ls ++ passes).filterMap fun l => l.content.declares?).Nodup := by
  rw [List.filterMap_append, List.filterMap_append, h.filterMap_passes, List.append_nil,
    h.filterMap_declarations]
  refine List.Nodup.append (nodup_hoisted arguments tree) h.marks.nodup fun k hk hmarked => ?_
  obtain ⟨-, hother⟩ := mem_hoisted.mp hk
  obtain ⟨-, -, hassigned⟩ := h.marks.mem_declared.mp hmarked
  rw [h.uses, hother] at hassigned
  cases hassigned

/-- A slot that a line declares is not used first as an element. -/
theorem not_leads {x : Line} (hx : x ∈ declarations ++ ls ++ passes) {k : Nat}
    (hk : x.content.declares? = some k) : ¬ Leads depth (declarations ++ ls ++ passes) k := by
  rw [leads_iff, h.flatMap_uses]
  intro hiterated
  have hmem : k ∈ (declarations ++ ls ++ passes).filterMap fun l => l.content.declares? :=
    List.mem_filterMap.mpr ⟨x, hx, hk⟩
  rw [List.filterMap_append, List.filterMap_append, h.filterMap_passes, List.append_nil,
    h.filterMap_declarations, List.mem_append, mem_hoisted, h.marks.mem_declared, h.uses,
    hiterated] at hmem
  rcases hmem with ⟨-, hother⟩ | ⟨-, -, hassigned⟩
  · cases hother
  · cases hassigned

/-- A slot that is not used first as an element is declared before a line that takes it for
declared. -/
theorem exists_declaration {before after : List Line} {l : Line}
    (hsplit : declarations ++ ls ++ passes = before ++ l :: after) {k : Nat}
    (hk : k ∈ l.content.needs) (hle : arguments ≤ k)
    (hleads : ¬ Leads depth (declarations ++ ls ++ passes) k) :
    ∃ x ∈ before, x.depth = depth ∧ x.content.declares? = some k := by
  rw [leads_iff, h.flatMap_uses] at hleads
  have hl : k ∈ (l.uses depth).map (·.1) := Line.mem_uses_of_mem_needs hk
  have hused : k ∈ (nodesUses true tree).map (·.1) := by
    rw [← h.flatMap_uses, hsplit, List.flatMap_append, List.flatMap_cons, List.map_append,
      List.map_append]
    exact List.mem_append_right _ (List.mem_append_left _ hl)
  obtain ⟨u, hu⟩ := Option.ne_none_iff_exists'.mp (mt lookup_eq_none.mp (not_not.mpr hused))
  cases u with
  | iterated => exact absurd hu hleads
  | other =>
    -- It is declared at the top, and no declaration at the top takes anything for declared.
    have hmem : .declaration k ∈ declarations.map (·.content) := by
      rw [h.contents]
      exact List.mem_map_of_mem (mem_hoisted.mpr ⟨hle, hu⟩)
    obtain ⟨x, hx, hcontent⟩ := List.mem_map.mp hmem
    refine ⟨x, ?_, h.depths x hx, by rw [hcontent]; rfl⟩
    rw [List.append_assoc] at hsplit
    rcases List.append_eq_append_iff.mp hsplit with ⟨between, rfl, -⟩ | ⟨between, heq, hrest⟩
    · exact List.mem_append_left _ hx
    · cases between with
      | nil => rwa [heq, List.append_nil] at hx
      | cons y between =>
        obtain rfl := (List.cons.inj hrest).1
        have hmem : l.content ∈ declarations.map (·.content) :=
          List.mem_map_of_mem (heq ▸ List.mem_append_right _ List.mem_cons_self)
        rw [h.contents] at hmem
        obtain ⟨slot, -, hslot⟩ := List.mem_map.mp hmem
        rw [← hslot] at hk
        cases hk
  | assigned =>
    -- The line that declares it is the first one that uses it.
    have hmem := h.marks.mem_declared.mpr ⟨hle, List.not_mem_nil, h.uses.symm ▸ hu⟩
    obtain ⟨x, hx, hdeclares⟩ := List.mem_filterMap.mp hmem
    obtain ⟨first, rest, rfl⟩ := List.append_of_mem hx
    obtain ⟨-, -, hfirst, hassigned⟩ := h.marks.split.mp hdeclares
    have hdepth : depth = x.depth := by
      by_contra hne
      exact Line.lookup_uses_ne (fun _ _ => hne) k hassigned
    have hsplit' : (declarations ++ first) ++ x :: (rest ++ passes) = before ++ l :: after := by
      rw [← hsplit]
      simp only [List.append_assoc, List.cons_append]
    have hnew : k ∉ ((declarations ++ first).flatMap (·.uses depth)).map (·.1) := by
      rwa [List.flatMap_append, h.flatMap_uses_declarations, List.nil_append]
    rcases mem_of_first hsplit' hnew hl with hbefore | rfl
    · exact ⟨x, hbefore, hdepth.symm, hdeclares⟩
    · exact absurd hk (Line.not_mem_needs hdeclares hassigned)

end Opens

/-- **Scopes of declarations.** No slot has two declarations. A line that reads a slot, or assigns
it without declaring it, stands in the scope of a declaration of the slot, unless the slot is first
used as the element of an iteration: then it does in the iterations over the slot only. -/
theorem inScope_iff (hd : d.Registered) (hf : f ∈ (Script.decode d payload bounds).functions)
    (hs : (Structured.ofInstructions d options f.instructions length).value = .ok s)
    (hlines : w.body depth s.body = .ok lines) :
    (lines.filterMap fun l => l.content.declares?).Nodup ∧
      ∀ before l after, lines = before ++ l :: after →
        ∀ k ∈ l.content.needs, w.scope.names.arguments ≤ k →
          (InScope depth before l k ↔ ¬ Leads depth lines k ∨ Enclosed before l k) := by
  obtain ⟨hdeclares, hconst⟩ := undeclaring_of_ofInstructions hd hf hs
  obtain ⟨declarations, ls, passes, rfl, hopens⟩ := opens_of_body hdeclares hconst hlines
  refine ⟨hopens.nodup, fun before l after hsplit k hk hle => or_congr_left ?_⟩
  constructor
  · rintro ⟨x, hx, -, hdeclared⟩
    refine hopens.not_leads ?_ hdeclared
    rw [hsplit]
    exact List.mem_append_left _ hx
  · exact hopens.exists_declaration hsplit hk hle

end Functions

/-! ## A local read behind its iteration -/

/-- The code of a function of the oldest dialect: an iteration, behind which its element is read. -/
def elementBehind : List UInt8 :=
  [1, 0, 0, 0, 0, 0, 1, 0, 0, 0, 102, 1, 3, 1, 0, 0, 0, 0, 15, 0, 0, 0, 2, 0, 42, 1, 2, 12, 0, 43,
    1, 2, 7, 0, 2, 2, 45]

/-- Whether a body is an iteration without statements and a statement that reads its element. -/
def readsBehind : List Node → Bool
  | [.forLoop _ element (.slot source) [] setup latch, .block b] =>
    element == 2 && source == 0 && setup.statements.isEmpty && latch.statements.isEmpty &&
      b.statements == [.expr (.slot 2) 14]
  | _ => false

theorem exists_of_readsBehind {body : List Node} (h : readsBehind body = true) :
    ∃ (iterator : Nat) (setup latch b : BlockNode),
      body = [.forLoop iterator 2 (.slot 0) [] setup latch, .block b] ∧
        setup.statements = [] ∧ latch.statements = [] ∧ b.statements = [.expr (.slot 2) 14] := by
  unfold readsBehind at h
  split at h
  · rename_i iterator element source setup latch b
    simp only [Bool.and_eq_true, beq_iff_eq, List.isEmpty_iff] at h
    obtain ⟨⟨⟨⟨rfl, rfl⟩, hsetup⟩, hlatch⟩, hb⟩ := h
    exact ⟨iterator, setup, latch, b, rfl, hsetup, hlatch, hb⟩
  · cases h

/-- What is known of the nodes of such a body. -/
theorem each_of_readsBehind {w : Writer} {body : List Node} (h : readsBehind body = true) :
    Each w.Sayable body ∧ Each Undeclaring body ∧ Each ConstantCases body := by
  obtain ⟨iterator, setup, latch, b, rfl, hsetup, hlatch, hb⟩ := exists_of_readsBehind h
  have hslot (k : Nat) : w.scope.expr (.slot k) = .ok (w.scope.names.name k) := by
    unfold Scope.expr
    rw [Scope.write_slot]
    rfl
  have hloop : w.Sayable (.forLoop iterator 2 (.slot 0) [] setup latch) := by
    refine ⟨fun c hc => ?_, nofun⟩
    cases hc with
    | iteration => exact ⟨_, Outcome.bind_eq_ok.mpr ⟨_, hslot 0, rfl⟩⟩
    | setup hstmt => rw [hsetup] at hstmt; cases hstmt
    | latch hstmt => rw [hlatch] at hstmt; cases hstmt
  have hblock : w.Sayable (.block b) := by
    refine ⟨fun c hc => ?_, nofun⟩
    cases hc with
    | statement hstmt =>
      obtain rfl := List.mem_singleton.mp (hb ▸ hstmt)
      exact ⟨_, Outcome.bind_eq_ok.mpr ⟨_, hslot 2, rfl⟩⟩
  have hloop' : Undeclaring (.forLoop iterator 2 (.slot 0) [] setup latch) := by
    intro stmt hc
    cases hc with
    | setup hstmt => rw [hsetup] at hstmt; cases hstmt
    | latch hstmt => rw [hlatch] at hstmt; cases hstmt
  have hblock' : Undeclaring (.block b) := by
    intro stmt hc
    cases hc with
    | statement hstmt =>
      obtain rfl := List.mem_singleton.mp (hb ▸ hstmt)
      rfl
  exact ⟨(Node.Each.forLoop hloop Node.each_nil).cons (Node.each_lone hblock rfl),
    (Node.Each.forLoop hloop' Node.each_nil).cons (Node.each_lone hblock' rfl),
    (Node.Each.forLoop trivial Node.each_nil).cons (Node.each_lone trivial rfl)⟩

/-- The last line of such a body is as deep as the body, and reads a slot that is first used as an
element. -/
theorem exists_line_behind {w : Writer} {body : List Node} (hbody : readsBehind body = true)
    (depth : Nat) : ∃ before l after, w.body depth body = .ok (before ++ l :: after) ∧
      2 ∈ l.content.needs ∧ Leads depth (before ++ l :: after) 2 ∧ ¬ Enclosed before l 2 := by
  obtain ⟨hsayable, hdeclares, hconst⟩ := each_of_readsBehind (w := w) hbody
  obtain ⟨iterator, setup, latch, b, rfl, hsetup, hlatch, hb⟩ := exists_of_readsBehind hbody
  obtain ⟨lines, hlines⟩ := Writer.exists_body_ok hsayable depth
  obtain ⟨ns, declarations, ls, hkeeps, hdeclarations, hls, hend⟩ := Writer.body_ok hlines
  have hleads : Leads depth lines 2 := by
    obtain ⟨declarations, ls, passes, rfl, hopens⟩ := opens_of_body hdeclares hconst hlines
    rw [leads_iff, hopens.flatMap_uses]
    simp only [nodesUses, nodeUses, hsetup, hlatch, hb]
    rfl
  obtain rfl : ns = [.forLoop iterator 2 (.slot 0) [] setup latch, .block b] := by
    rcases hkeeps with rfl | ⟨value, implicit, heq, -⟩
    · rfl
    · have hlast := congrArg List.getLast? heq
      rw [List.getLast?_concat] at hlast
      cases hlast
  rw [declared, declared, declared, Writer.nodes, declaredNode, declaredNode, hb] at hls
  obtain ⟨first, hfirst, hls⟩ := Outcome.bind_eq_ok.mp hls
  obtain ⟨rest, hrest, hls⟩ := Outcome.bind_eq_ok.mp hls
  cases hls
  rw [Writer.nodes, Writer.nodes, Writer.node] at hrest
  obtain ⟨second, hsecond, hrest⟩ := Outcome.bind_eq_ok.mp hrest
  cases hrest
  obtain ⟨hcontents, hdepths⟩ := Writer.lines_ok hsecond
  obtain ⟨labels, last, rfl, -, hlast⟩ := List.map_eq_append_iff.mp hcontents
  obtain ⟨l, hl⟩ := List.map_eq_singleton_iff.mp hlast
  obtain ⟨rfl, hl⟩ := hl
  obtain ⟨passes, hpasses⟩ : ∃ passes,
      lines = (declarations ++ (first ++ labels)) ++ l :: passes := by
    rcases hend with ⟨rfl, -⟩ | hfilled
    · exact ⟨[], by simp⟩
    · obtain ⟨passes, rfl, -⟩ := hfilled.exists_append
      exact ⟨passes, by simp⟩
  subst hpasses
  refine ⟨_, l, passes, hlines, by rw [hl]; exact List.mem_singleton_self 2, hleads, ?_⟩
  -- Nothing before the line stands less deep than it.
  have hdeep : ∀ x ∈ declarations ++ (first ++ labels), depth ≤ x.depth := by
    refine List.forall_mem_append.mpr ⟨fun x hx => ?_, List.forall_mem_append.mpr ⟨fun x hx => ?_,
      fun x hx => ?_⟩⟩
    · exact ((Writer.lines_ok hdeclarations).2 x hx).ge
    · exact ((Writer.lays_of_node (P := fun _ => True) (fun _ _ => trivial) hfirst).heard x hx).1
    · exact (hdepths x (List.mem_append_left _ hx)).ge
  rintro ⟨outside, head, inside, heq, -, hinside⟩
  have hhead := hdeep head (heq ▸ List.mem_append_right _ List.mem_cons_self)
  have hless := hinside l (List.mem_append_right _ (List.mem_singleton_self l))
  have hsame := hdepths l (List.mem_append_right _ (List.mem_singleton_self l))
  omega

theorem elementBehind_tree : ∃ f ∈ (Script.decode Registry.oldest elementBehind).functions,
    f.complete ∧ f.header.arguments = 1 ∧
      ∃ s, (Structured.ofInstructions Registry.oldest {} f.instructions
        (some f.codeLength)).value = .ok s ∧ readsBehind s.body = true := by
  have hfound : ((Script.decode Registry.oldest elementBehind).functions.any fun f =>
      f.complete && f.header.arguments == 1 && (Structured.ofInstructions Registry.oldest {}
        f.instructions (some f.codeLength)).value.toOption.any fun s => readsBehind s.body) =
          true := by
    decide +kernel
  obtain ⟨f, hf, hfound⟩ := List.any_eq_true.mp hfound
  simp only [Bool.and_eq_true, beq_iff_eq, Option.any_eq_true] at hfound
  obtain ⟨⟨hcomplete, harguments⟩, s, hs, hreads⟩ := hfound
  exact ⟨f, hf, hcomplete, harguments, s, Outcome.toOption_eq_some.mp hs, hreads⟩

/-- The element of an iteration, read behind it. -/
theorem inScope_iff_elementBehind :
    ∃ f ∈ (Script.decode Registry.oldest elementBehind).functions,
      ∃ s, (Structured.ofInstructions Registry.oldest {} f.instructions
        (some f.codeLength)).value = .ok s ∧
        ∃ lines, (writerOf ⟨Registry.oldest, "\t", []⟩ f.header f.constants
            (.ofStructured s)).body 1 s.body = .ok lines ∧
          (lines.filterMap fun l => l.content.declares?).Nodup ∧
          ∃ before l after, lines = before ++ l :: after ∧ 2 ∈ l.content.needs ∧
            f.header.arguments ≤ 2 ∧
            (InScope 1 before l 2 ↔ ¬ Leads 1 lines 2 ∨ Enclosed before l 2) := by
  obtain ⟨f, hf, -, harguments, s, hs, hreads⟩ := elementBehind_tree
  obtain ⟨before, l, after, hlines, hneeds, -, -⟩ := exists_line_behind
    (w := writerOf ⟨Registry.oldest, "\t", []⟩ f.header f.constants (.ofStructured s)) hreads 1
  have hle : f.header.arguments ≤ 2 := by omega
  obtain ⟨hnodup, hscope⟩ := inScope_iff (Dialect.registered_of_mem Registry.oldest_mem) hf hs hlines
  exact ⟨f, hf, s, hs, _, hlines, hnodup, before, l, after, rfl, hneeds, hle,
    hscope before l after rfl 2 hneeds hle⟩

/-- Not every line of every function stands in the scope of declarations of the slots that it takes
for declared. -/
theorem not_forall_inScope :
    ¬ ∀ d ∈ Registry.standard.dialects, ∀ payload, ∀ f ∈ (Script.decode d payload).functions,
      f.complete → ∀ s, (Structured.ofInstructions d {} f.instructions
        (some f.codeLength)).value = .ok s →
      ∀ lines, (writerOf ⟨d, "\t", []⟩ f.header f.constants (.ofStructured s)).body 1 s.body =
          .ok lines →
        ∀ before l after, lines = before ++ l :: after → ∀ k ∈ l.content.needs,
          f.header.arguments ≤ k → InScope 1 before l k := by
  intro h
  obtain ⟨f, hf, hcomplete, harguments, s, hs, hreads⟩ := elementBehind_tree
  obtain ⟨before, l, after, hlines, hneeds, hleads, henclosed⟩ := exists_line_behind
    (w := writerOf ⟨Registry.oldest, "\t", []⟩ f.header f.constants (.ofStructured s)) hreads 1
  have hin := h Registry.oldest Registry.oldest_mem elementBehind f hf hcomplete s hs _ hlines before
    l after rfl 2 hneeds (by omega)
  rcases hin with ⟨x, hx, -, hdeclares⟩ | hin
  · obtain ⟨hundeclaring, hconst⟩ := undeclaring_of_ofInstructions
      (Dialect.registered_of_mem Registry.oldest_mem) hf hs
    obtain ⟨declarations, ls, passes, heq, hopens⟩ := opens_of_body hundeclaring hconst hlines
    refine hopens.not_leads (x := x) ?_ hdeclares (heq ▸ hleads)
    rw [← heq]
    exact List.mem_append_left _ hx
  · exact henclosed hin

end Unscript.Source
