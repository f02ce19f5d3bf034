import Unscript.Proofs.Tree.Node

/-!
# The nodes of one loop

A step to the next turn belongs to the nearest loop around it. So the nodes that belong to a loop are
those of its body that are not inside a further loop.

* `Node.boundAll`: the nodes of a body that belong to the same loop.
* `Node.loopBody`: the nodes that a loop encloses.
* `Node.Enclosed`: no step that only a loop gives a meaning stands outside of loops.

Results:
* `Node.boundAll_ifElse`, `Node.boundAll_matching`: these nodes of a construct by its bodies.
* `Node.boundAll_trans`: what belongs to the loop of a node belongs to the loop of its body.
* `Node.mem_boundAll_or_inside`: what does not belong to the loop of a body is inside a further loop.
-/

namespace Unscript.Node

mutual

/-- A node and the nodes inside it that belong to the same loop, outermost first. -/
def bound : Node → List Node
  | .sequence body => .sequence body :: boundAll body
  | .ifElse id c whenTrue whenFalse =>
    .ifElse id c whenTrue whenFalse :: (boundAll whenTrue ++ boundAll whenFalse)
  | .matching id s cases fallback tests =>
    .matching id s cases fallback tests :: (boundCases cases ++ boundFallback fallback)
  | n => [n]

/-- The nodes of a body that belong to the same loop, outermost first. -/
def boundAll : List Node → List Node
  | [] => []
  | n :: ns => n.bound ++ boundAll ns

/-- The nodes of all cases that belong to the same loop. -/
def boundCases : List (Expr × List Node) → List Node
  | [] => []
  | (_, body) :: rest => boundAll body ++ boundCases rest

/-- The nodes of a body that may be absent. -/
def boundFallback : Option (List Node) → List Node
  | none => []
  | some body => boundAll body

end

variable {n m : Node} {a b body : List Node}

/-! ## Constructs -/

theorem boundAll_append (a b : List Node) : boundAll (a ++ b) = boundAll a ++ boundAll b := by
  induction a with
  | nil => rfl
  | cons n a ih => rw [List.cons_append, boundAll, boundAll, ih, List.append_assoc]

theorem boundAll_singleton (n : Node) : boundAll [n] = n.bound := by
  rw [boundAll, boundAll, List.append_nil]

theorem mem_bound_self (n : Node) : n ∈ n.bound := by
  cases n <;> exact List.mem_cons_self

theorem boundAll_cons (n : Node) (ns : List Node) :
    boundAll (n :: ns) = boundAll [n] ++ boundAll ns :=
  boundAll_append [n] ns

theorem boundAll_ifElse (id : Option Nat) (c : Expr) (whenTrue whenFalse : List Node) :
    boundAll [.ifElse id c whenTrue whenFalse] =
      .ifElse id c whenTrue whenFalse :: (boundAll whenTrue ++ boundAll whenFalse) := by
  rw [boundAll_singleton, bound]

theorem boundCases_eq (cases : List (Expr × List Node)) :
    boundCases cases = cases.flatMap fun c => boundAll c.2 := by
  induction cases with
  | nil => rfl
  | cons c cases ih =>
    obtain ⟨e, body⟩ := c
    rw [boundCases, ih, List.flatMap_cons]

theorem boundAll_matching (id : Option Nat) (s : Expr) (cases : List (Expr × List Node))
    (fallback : Option (List Node)) (tests : List BlockNode) :
    boundAll [.matching id s cases fallback tests] = .matching id s cases fallback tests ::
      ((cases.flatMap fun c => boundAll c.2) ++ boundAll (fallback.getD [])) := by
  have hfallback : boundFallback fallback = boundAll (fallback.getD []) := by
    cases fallback <;> rfl
  rw [boundAll_singleton, bound, boundCases_eq, hfallback]

theorem boundAll_replicate_nextTurn (k : Nat) :
    boundAll (List.replicate k .nextTurn) = List.replicate k .nextTurn := by
  induction k with
  | zero => rfl
  | succ k ih => rw [List.replicate_succ, boundAll_cons, ih]; rfl

theorem mem_boundAll_of_stripNextTurn (h : n ∈ boundAll (stripNextTurn body)) :
    n ∈ boundAll body := by
  obtain ⟨k, hk⟩ := exists_replicate_stripNextTurn body
  rw [hk, boundAll_append]
  exact List.mem_append_left _ h

/-- A loop body loses nothing but steps to the next turn. -/
theorem mem_boundAll_stripNextTurn (h : n ∈ boundAll body) (hne : n ≠ .nextTurn) :
    n ∈ boundAll (stripNextTurn body) := by
  obtain ⟨k, hk⟩ := exists_replicate_stripNextTurn body
  rw [hk, boundAll_append, boundAll_replicate_nextTurn] at h
  rcases List.mem_append.mp h with h | h
  · exact h
  · exact absurd (List.mem_replicate.mp h).2 hne

/-! ## Inside -/

theorem bound_trans_of_eq {x : Node} (hm : m.bound = [m]) (hx : x ∈ n.bound) (h : n ∈ m.bound) :
    x ∈ m.bound := by
  rw [hm] at h
  rwa [List.mem_singleton.mp h] at hx

mutual

theorem bound_trans {n x : Node} (hx : x ∈ n.bound) : ∀ {m : Node}, n ∈ m.bound → x ∈ m.bound
  | .sequence body, h => by
    rw [bound] at h ⊢
    rcases List.mem_cons.mp h with rfl | h
    · rwa [bound] at hx
    · exact List.mem_cons_of_mem _ (boundAll_trans hx h)
  | .ifElse id c whenTrue whenFalse, h => by
    rw [bound] at h ⊢
    rcases List.mem_cons.mp h with rfl | h
    · rwa [bound] at hx
    refine List.mem_cons_of_mem _ (List.mem_append.mpr ?_)
    rcases List.mem_append.mp h with h | h
    · exact .inl (boundAll_trans hx h)
    · exact .inr (boundAll_trans hx h)
  | .matching id s cases fallback tests, h => by
    rw [bound] at h ⊢
    rcases List.mem_cons.mp h with rfl | h
    · rwa [bound] at hx
    refine List.mem_cons_of_mem _ (List.mem_append.mpr ?_)
    rcases List.mem_append.mp h with h | h
    · exact .inl (boundCases_trans hx h)
    · exact .inr (boundFallback_trans hx h)
  | .block _, h | .whileLoop .., h | .forLoop .., h | .ret .., h | .leaveLoop, h | .nextTurn, h
  | .raw _, h => bound_trans_of_eq rfl hx h

/-- What belongs to the loop of a node belongs to the loop of its body. -/
theorem boundAll_trans {n x : Node} (hx : x ∈ n.bound) :
    ∀ {body : List Node}, n ∈ boundAll body → x ∈ boundAll body
  | [], h => absurd h List.not_mem_nil
  | _ :: _, h => by
    rw [boundAll] at h ⊢
    rcases List.mem_append.mp h with h | h
    · exact List.mem_append_left _ (bound_trans hx h)
    · exact List.mem_append_right _ (boundAll_trans hx h)

theorem boundCases_trans {n x : Node} (hx : x ∈ n.bound) :
    ∀ {cases : List (Expr × List Node)}, n ∈ boundCases cases → x ∈ boundCases cases
  | [], h => absurd h List.not_mem_nil
  | (_, _) :: _, h => by
    rw [boundCases] at h ⊢
    rcases List.mem_append.mp h with h | h
    · exact List.mem_append_left _ (boundAll_trans hx h)
    · exact List.mem_append_right _ (boundCases_trans hx h)

theorem boundFallback_trans {n x : Node} (hx : x ∈ n.bound) :
    ∀ {fallback : Option (List Node)}, n ∈ boundFallback fallback → x ∈ boundFallback fallback
  | none, h => absurd h List.not_mem_nil
  | some _, h => boundAll_trans hx h

end

/-! ## Loops -/

/-- The nodes that a loop encloses. -/
def loopBody : Node → List Node
  | .whileLoop _ body _ => body
  | .forLoop _ _ _ body _ _ => body
  | _ => []

/-- A node inside one of the outermost loops of a body. -/
def Inside (nodes : List Node) (n : Node) : Prop :=
  ∃ l ∈ nodes, n ∈ preorderAll l.loopBody

theorem Inside.mono {a b : List Node} (h : Inside a n) (hab : ∀ l ∈ a, l ∈ b) : Inside b n := by
  obtain ⟨l, hl, hn⟩ := h
  exact ⟨l, hab l hl, hn⟩

theorem mem_or_inside_mono {a b : List Node} (h : n ∈ a ∨ Inside a n) (hab : ∀ l ∈ a, l ∈ b) :
    n ∈ b ∨ Inside b n :=
  h.imp (hab n) fun h => h.mono hab

mutual

theorem mem_bound_or_inside {n : Node} :
    ∀ {m : Node}, n ∈ m.preorder → n ∈ m.bound ∨ Inside m.bound n
  | .sequence body, h => by
    rw [preorder] at h
    rw [bound]
    rcases List.mem_cons.mp h with rfl | h
    · exact .inl List.mem_cons_self
    · exact mem_or_inside_mono (mem_boundAll_or_inside h) fun _ => List.mem_cons_of_mem _
  | .ifElse id c whenTrue whenFalse, h => by
    rw [preorder] at h
    rw [bound]
    rcases List.mem_cons.mp h with rfl | h
    · exact .inl List.mem_cons_self
    rcases List.mem_append.mp h with h | h
    · exact mem_or_inside_mono (mem_boundAll_or_inside h) fun _ hl =>
        List.mem_cons_of_mem _ (List.mem_append_left _ hl)
    · exact mem_or_inside_mono (mem_boundAll_or_inside h) fun _ hl =>
        List.mem_cons_of_mem _ (List.mem_append_right _ hl)
  | .matching id s cases fallback tests, h => by
    rw [preorder] at h
    rw [bound]
    rcases List.mem_cons.mp h with rfl | h
    · exact .inl List.mem_cons_self
    rcases List.mem_append.mp h with h | h
    · exact mem_or_inside_mono (mem_boundCases_or_inside h) fun _ hl =>
        List.mem_cons_of_mem _ (List.mem_append_left _ hl)
    · exact mem_or_inside_mono (mem_boundFallback_or_inside h) fun _ hl =>
        List.mem_cons_of_mem _ (List.mem_append_right _ hl)
  | .whileLoop c body header, h => by
    rw [preorder] at h
    rcases List.mem_cons.mp h with rfl | h
    · exact .inl (mem_bound_self _)
    · exact .inr ⟨_, mem_bound_self _, h⟩
  | .forLoop i v e body setup latch, h => by
    rw [preorder] at h
    rcases List.mem_cons.mp h with rfl | h
    · exact .inl (mem_bound_self _)
    · exact .inr ⟨_, mem_bound_self _, h⟩
  | .block _, h | .ret .., h | .leaveLoop, h | .nextTurn, h | .raw _, h => .inl h

/-- What does not belong to the loop of a body is inside a further loop. -/
theorem mem_boundAll_or_inside {n : Node} :
    ∀ {body : List Node}, n ∈ preorderAll body → n ∈ boundAll body ∨ Inside (boundAll body) n
  | [], h => absurd h List.not_mem_nil
  | _ :: _, h => by
    rw [preorderAll] at h
    rw [boundAll]
    rcases List.mem_append.mp h with h | h
    · exact mem_or_inside_mono (mem_bound_or_inside h) fun _ => List.mem_append_left _
    · exact mem_or_inside_mono (mem_boundAll_or_inside h) fun _ => List.mem_append_right _

theorem mem_boundCases_or_inside {n : Node} : ∀ {cases : List (Expr × List Node)},
    n ∈ preorderCases cases → n ∈ boundCases cases ∨ Inside (boundCases cases) n
  | [], h => absurd h List.not_mem_nil
  | (_, _) :: _, h => by
    rw [preorderCases] at h
    rw [boundCases]
    rcases List.mem_append.mp h with h | h
    · exact mem_or_inside_mono (mem_boundAll_or_inside h) fun _ => List.mem_append_left _
    · exact mem_or_inside_mono (mem_boundCases_or_inside h) fun _ => List.mem_append_right _

theorem mem_boundFallback_or_inside {n : Node} : ∀ {fallback : Option (List Node)},
    n ∈ preorderFallback fallback → n ∈ boundFallback fallback ∨ Inside (boundFallback fallback) n
  | none, h => absurd h List.not_mem_nil
  | some _, h => mem_boundAll_or_inside h

end

/-- No step that only a loop gives a meaning stands outside of loops. -/
@[mk_iff]
structure Enclosed (nodes : List Node) : Prop where
  exits : .leaveLoop ∉ boundAll nodes
  turns : .nextTurn ∉ boundAll nodes

section Enclosed

theorem enclosed_nil : Enclosed [] :=
  ⟨List.not_mem_nil, List.not_mem_nil⟩

theorem enclosed_append : Enclosed (a ++ b) ↔ Enclosed a ∧ Enclosed b := by
  simp only [enclosed_iff, boundAll_append, List.mem_append]
  tauto

theorem enclosed_lone (hbound : boundAll [n] = [n]) (hexit : n ≠ .leaveLoop)
    (hturn : n ≠ .nextTurn) : Enclosed [n] := by
  constructor <;> rw [hbound, List.mem_singleton]
  · exact hexit.symm
  · exact hturn.symm

theorem enclosed_ifElse {id : Option Nat} {c : Expr} :
    Enclosed [.ifElse id c a b] ↔ Enclosed a ∧ Enclosed b := by
  simp only [enclosed_iff, boundAll_ifElse, List.mem_cons, List.mem_append, reduceCtorEq, false_or]
  tauto

theorem enclosed_matching {id : Option Nat} {s : Expr} {cases : List (Expr × List Node)}
    {fallback : Option (List Node)} {tests : List BlockNode} :
    Enclosed [.matching id s cases fallback tests] ↔
      (∀ c ∈ cases, Enclosed c.2) ∧ Enclosed (fallback.getD []) := by
  simp only [enclosed_iff, boundAll_matching, List.mem_cons, List.mem_append, List.mem_flatMap,
    reduceCtorEq, false_or]
  grind

/-- Every step that only a loop gives a meaning is in the body of a loop. -/
theorem Enclosed.inside (h : Enclosed body) (hn : n ∈ preorderAll body)
    (hstep : n = .leaveLoop ∨ n = .nextTurn) : Inside (boundAll body) n := by
  rcases mem_boundAll_or_inside hn with hbound | hinside
  · rcases hstep with rfl | rfl
    · exact absurd hbound h.exits
    · exact absurd hbound h.turns
  · exact hinside

end Enclosed

end Unscript.Node
