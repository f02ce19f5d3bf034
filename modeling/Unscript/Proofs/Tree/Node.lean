import Unscript.Tree.Node
import Mathlib.Data.List.Basic
import Mathlib.Data.List.Induction

/-!
# Nodes of a body

* `Node.Each`: what holds of all nodes of a body.
* `Node.gather`: what the nodes of a body hold.

Results:
* `Node.preorderAll_append`, `Node.preorderAll_ifElse`, `Node.preorderAll_matching` and others: the
  nodes of a body put together from two, and of a construct by its bodies.
* `Node.raws_cons`, `Node.raws_ifElse`, `Node.raws_matching` and others: the same of the raw nodes.
* `Node.exists_replicate_stripNextTurn`: what a loop body loses are steps to the next turn.
-/

namespace Unscript.Node

variable {n : Node} {a b body ns : List Node}

/-! ## All nodes -/

theorem preorderAll_append (a b : List Node) :
    preorderAll (a ++ b) = preorderAll a ++ preorderAll b := by
  induction a with
  | nil => rfl
  | cons n a ih =>
    rw [List.cons_append, preorderAll, preorderAll, ih, List.append_assoc]

theorem preorderAll_singleton (n : Node) : preorderAll [n] = n.preorder := by
  rw [preorderAll, preorderAll, List.append_nil]

theorem preorderAll_cons (n : Node) (ns : List Node) :
    preorderAll (n :: ns) = preorderAll [n] ++ preorderAll ns :=
  preorderAll_append [n] ns

theorem preorderAll_ifElse (id : Option Nat) (c : Expr) (whenTrue whenFalse : List Node) :
    preorderAll [.ifElse id c whenTrue whenFalse] =
      .ifElse id c whenTrue whenFalse :: (preorderAll whenTrue ++ preorderAll whenFalse) := by
  rw [preorderAll_singleton, preorder]

theorem preorderAll_whileLoop (c : Expr) (body : List Node) (header : Option BlockNode) :
    preorderAll [.whileLoop c body header] = .whileLoop c body header :: preorderAll body := by
  rw [preorderAll_singleton, preorder]

theorem preorderAll_forLoop (i v : Nat) (e : Expr) (body : List Node) (setup latch : BlockNode) :
    preorderAll [.forLoop i v e body setup latch] =
      .forLoop i v e body setup latch :: preorderAll body := by
  rw [preorderAll_singleton, preorder]

theorem preorderCases_eq (cases : List (Expr × List Node)) :
    preorderCases cases = cases.flatMap fun c => preorderAll c.2 := by
  induction cases with
  | nil => rfl
  | cons c cases ih =>
    obtain ⟨e, body⟩ := c
    rw [preorderCases, ih, List.flatMap_cons]

theorem preorderAll_matching (id : Option Nat) (s : Expr) (cases : List (Expr × List Node))
    (fallback : Option (List Node)) (tests : List BlockNode) :
    preorderAll [.matching id s cases fallback tests] = .matching id s cases fallback tests ::
      ((cases.flatMap fun c => preorderAll c.2) ++ preorderAll (fallback.getD [])) := by
  have hfallback : preorderFallback fallback = preorderAll (fallback.getD []) := by
    cases fallback <;> rfl
  rw [preorderAll_singleton, preorder, preorderCases_eq, hfallback]

/-! ## Loop bodies -/

theorem stripNextTurn_append (body : List Node) :
    stripNextTurn (body ++ [.nextTurn]) = stripNextTurn body := by
  unfold stripNextTurn
  rw [List.reverse_append, List.reverse_singleton, List.singleton_append,
    List.dropWhile_cons_of_pos rfl]

theorem stripNextTurn_append_of_ne (body : List Node) (h : n.isNextTurn = false) :
    stripNextTurn (body ++ [n]) = body ++ [n] := by
  unfold stripNextTurn
  rw [List.reverse_append, List.reverse_singleton, List.singleton_append,
    List.dropWhile_cons_of_neg (by rw [h]; exact Bool.false_ne_true), List.reverse_cons,
    List.reverse_reverse]

theorem eq_nextTurn_of_isNextTurn (h : n.isNextTurn = true) : n = .nextTurn := by
  cases n <;> first | rfl | cases h

/-- What a loop body loses are steps to the next turn. -/
theorem exists_replicate_stripNextTurn (body : List Node) :
    ∃ k, body = stripNextTurn body ++ List.replicate k .nextTurn := by
  induction body using List.reverseRecOn with
  | nil => exact ⟨0, rfl⟩
  | append_singleton body n ih =>
    cases h : n.isNextTurn with
    | true =>
      obtain ⟨k, hk⟩ := ih
      refine ⟨k + 1, ?_⟩
      rw [eq_nextTurn_of_isNextTurn h, stripNextTurn_append, List.replicate_succ',
        ← List.append_assoc, ← hk]
    | false => exact ⟨0, by rw [stripNextTurn_append_of_ne body h, List.replicate_zero,
        List.append_nil]⟩

theorem preorderAll_replicate_nextTurn (k : Nat) :
    preorderAll (List.replicate k .nextTurn) = List.replicate k .nextTurn := by
  induction k with
  | zero => rfl
  | succ k ih => rw [List.replicate_succ, preorderAll_cons, ih]; rfl

/-! ## Properties of all nodes -/

/-- A property of all nodes of a body. -/
def Each (P : Node → Prop) (body : List Node) : Prop :=
  ∀ n ∈ preorderAll body, P n

section Each

variable {P : Node → Prop}

theorem each_nil : Each P [] :=
  fun _ h => absurd h List.not_mem_nil

theorem each_append : Each P (a ++ b) ↔ Each P a ∧ Each P b := by
  unfold Each
  rw [preorderAll_append]
  exact List.forall_mem_append

theorem Each.append (ha : Each P a) (hb : Each P b) : Each P (a ++ b) :=
  each_append.mpr ⟨ha, hb⟩

theorem each_cons : Each P (n :: b) ↔ Each P [n] ∧ Each P b :=
  each_append (a := [n])

theorem Each.cons (hn : Each P [n]) (hb : Each P b) : Each P (n :: b) :=
  each_cons.mpr ⟨hn, hb⟩

theorem Each.mono {Q : Node → Prop} (h : Each P b) (hpq : ∀ n, P n → Q n) : Each Q b :=
  fun n hn => hpq n (h n hn)

/-- A node without nodes inside it. -/
theorem each_lone (hn : P n) (hall : preorderAll [n] = [n]) : Each P [n] := by
  unfold Each
  rw [hall]
  exact List.forall_mem_singleton.mpr hn

theorem Each.head (h : Each P [n]) : P n := by
  refine h n ?_
  rw [preorderAll_singleton]
  cases n <;> simp [preorder]

theorem each_sequence : Each P [.sequence body] ↔ P (.sequence body) ∧ Each P body := by
  unfold Each
  rw [preorderAll_singleton, preorder]
  exact List.forall_mem_cons

theorem each_ifElse {id : Option Nat} {c : Expr} :
    Each P [.ifElse id c a b] ↔ P (.ifElse id c a b) ∧ Each P a ∧ Each P b := by
  unfold Each
  rw [preorderAll_ifElse, List.forall_mem_cons, List.forall_mem_append]

theorem Each.ifElse {id : Option Nat} {c : Expr} (hn : P (.ifElse id c a b)) (ha : Each P a)
    (hb : Each P b) : Each P [.ifElse id c a b] :=
  each_ifElse.mpr ⟨hn, ha, hb⟩

theorem each_whileLoop {c : Expr} {header : Option BlockNode} :
    Each P [.whileLoop c body header] ↔ P (.whileLoop c body header) ∧ Each P body := by
  unfold Each
  rw [preorderAll_whileLoop]
  exact List.forall_mem_cons

theorem Each.whileLoop {c : Expr} {header : Option BlockNode} (hn : P (.whileLoop c body header))
    (h : Each P body) : Each P [.whileLoop c body header] :=
  each_whileLoop.mpr ⟨hn, h⟩

theorem each_forLoop {i v : Nat} {e : Expr} {setup latch : BlockNode} :
    Each P [.forLoop i v e body setup latch] ↔
      P (.forLoop i v e body setup latch) ∧ Each P body := by
  unfold Each
  rw [preorderAll_forLoop]
  exact List.forall_mem_cons

theorem Each.forLoop {i v : Nat} {e : Expr} {setup latch : BlockNode}
    (hn : P (.forLoop i v e body setup latch)) (h : Each P body) :
    Each P [.forLoop i v e body setup latch] :=
  each_forLoop.mpr ⟨hn, h⟩

theorem each_matching {id : Option Nat} {s : Expr} {cases : List (Expr × List Node)}
    {fallback : Option (List Node)} {tests : List BlockNode} :
    Each P [.matching id s cases fallback tests] ↔ P (.matching id s cases fallback tests) ∧
      (∀ c ∈ cases, Each P c.2) ∧ Each P (fallback.getD []) := by
  unfold Each
  rw [preorderAll_matching, List.forall_mem_cons, List.forall_mem_append]
  simp only [List.mem_flatMap]
  constructor
  · rintro ⟨hn, hcases, hfallback⟩
    exact ⟨hn, fun c hc m hm => hcases m ⟨c, hc, hm⟩, hfallback⟩
  · rintro ⟨hn, hcases, hfallback⟩
    exact ⟨hn, fun m ⟨c, hc, hm⟩ => hcases c hc m hm, hfallback⟩

theorem Each.matching {id : Option Nat} {s : Expr} {cases : List (Expr × List Node)}
    {fallback : Option (List Node)} {tests : List BlockNode}
    (hn : P (.matching id s cases fallback tests)) (hcases : ∀ c ∈ cases, Each P c.2)
    (hfallback : Each P (fallback.getD [])) : Each P [.matching id s cases fallback tests] :=
  each_matching.mpr ⟨hn, hcases, hfallback⟩

theorem Each.stripNextTurn (h : Each P body) : Each P (Node.stripNextTurn body) := by
  obtain ⟨k, hk⟩ := exists_replicate_stripNextTurn body
  intro n hn
  refine h n ?_
  rw [hk, preorderAll_append]
  exact List.mem_append_left _ hn

end Each

/-! ## What nodes hold -/

section Gather

variable {α : Type} (g : Node → List α)

/-- What the nodes of a body hold, outermost first. -/
def gather (body : List Node) : List α :=
  (preorderAll body).flatMap g

@[simp] theorem gather_nil : gather g [] = [] := rfl

theorem gather_append (a b : List Node) : gather g (a ++ b) = gather g a ++ gather g b := by
  unfold gather
  rw [preorderAll_append, List.flatMap_append]

theorem gather_cons (n : Node) (ns : List Node) : gather g (n :: ns) = gather g [n] ++ gather g ns :=
  gather_append g [n] ns

theorem gather_lone (hall : preorderAll [n] = [n]) : gather g [n] = g n := by
  unfold gather
  rw [hall, List.flatMap_singleton]

theorem gather_sequence (body : List Node) :
    gather g [.sequence body] = g (.sequence body) ++ gather g body := by
  unfold gather
  rw [preorderAll_singleton, preorder, List.flatMap_cons]

theorem gather_ifElse (id : Option Nat) (c : Expr) (whenTrue whenFalse : List Node) :
    gather g [.ifElse id c whenTrue whenFalse] =
      g (.ifElse id c whenTrue whenFalse) ++ (gather g whenTrue ++ gather g whenFalse) := by
  unfold gather
  rw [preorderAll_ifElse, List.flatMap_cons, List.flatMap_append]

theorem gather_whileLoop (c : Expr) (body : List Node) (header : Option BlockNode) :
    gather g [.whileLoop c body header] = g (.whileLoop c body header) ++ gather g body := by
  unfold gather
  rw [preorderAll_whileLoop, List.flatMap_cons]

theorem gather_forLoop (i v : Nat) (e : Expr) (body : List Node) (setup latch : BlockNode) :
    gather g [.forLoop i v e body setup latch] =
      g (.forLoop i v e body setup latch) ++ gather g body := by
  unfold gather
  rw [preorderAll_forLoop, List.flatMap_cons]

theorem gather_flatMap (cases : List (Expr × List Node)) :
    gather g (cases.flatMap (·.2)) = cases.flatMap fun c => gather g c.2 := by
  induction cases with
  | nil => rfl
  | cons c cases ih => rw [List.flatMap_cons, List.flatMap_cons, gather_append, ih]

theorem gather_matching (id : Option Nat) (s : Expr) (cases : List (Expr × List Node))
    (fallback : Option (List Node)) (tests : List BlockNode) :
    gather g [.matching id s cases fallback tests] = g (.matching id s cases fallback tests) ++
      ((cases.flatMap fun c => gather g c.2) ++ gather g (fallback.getD [])) := by
  unfold gather
  rw [preorderAll_matching, List.flatMap_cons, List.flatMap_append, List.flatMap_assoc]

theorem gather_stripNextTurn (h : g .nextTurn = []) (body : List Node) :
    gather g (stripNextTurn body) = gather g body := by
  obtain ⟨k, hk⟩ := exists_replicate_stripNextTurn body
  conv_rhs => rw [hk, gather_append]
  have hnone : gather g (List.replicate k .nextTurn) = [] := by
    unfold gather
    rw [preorderAll_replicate_nextTurn]
    exact List.flatMap_eq_nil_iff.mpr fun n hn => by rw [(List.mem_replicate.mp hn).2, h]
  rw [hnone, List.append_nil]

end Gather

/-! ## Raw nodes -/

theorem raws_eq_gather (body : List Node) : raws body = gather (fun n => n.raw?.toList) body :=
  List.filterMap_eq_flatMap_toList _ _

theorem raws_append (a b : List Node) : raws (a ++ b) = raws a ++ raws b := by
  simp only [raws_eq_gather, gather_append]

theorem raws_cons (n : Node) (ns : List Node) : raws (n :: ns) = raws [n] ++ raws ns :=
  raws_append [n] ns

@[simp] theorem raws_nil : raws [] = [] := rfl

@[simp] theorem raws_block (b : BlockNode) : raws [.block b] = [] := rfl

@[simp] theorem raws_ret (value : Option Expr) (implicit : Bool) : raws [.ret value implicit] = [] :=
  rfl

@[simp] theorem raws_leaveLoop : raws [.leaveLoop] = [] := rfl

@[simp] theorem raws_nextTurn : raws [.nextTurn] = [] := rfl

@[simp] theorem raws_raw (r : RawNode) : raws [.raw r] = [r] := rfl

@[simp] theorem raws_ifElse (id : Option Nat) (c : Expr) (whenTrue whenFalse : List Node) :
    raws [.ifElse id c whenTrue whenFalse] = raws whenTrue ++ raws whenFalse := by
  simp only [raws_eq_gather, gather_ifElse]
  rfl

@[simp] theorem raws_whileLoop (c : Expr) (body : List Node) (header : Option BlockNode) :
    raws [.whileLoop c body header] = raws body := by
  simp only [raws_eq_gather, gather_whileLoop]
  rfl

@[simp] theorem raws_forLoop (i v : Nat) (e : Expr) (body : List Node) (setup latch : BlockNode) :
    raws [.forLoop i v e body setup latch] = raws body := by
  simp only [raws_eq_gather, gather_forLoop]
  rfl

/-- The raw nodes of the cases of a match. -/
def rawsOfCases (cases : List (Expr × List Node)) : List RawNode :=
  cases.flatMap fun c => raws c.2

@[simp] theorem raws_matching (id : Option Nat) (s : Expr) (cases : List (Expr × List Node))
    (fallback : Option (List Node)) (tests : List BlockNode) :
    raws [.matching id s cases fallback tests] =
      rawsOfCases cases ++ raws (fallback.getD []) := by
  unfold rawsOfCases
  simp only [raws_eq_gather, gather_matching]
  rfl

@[simp] theorem raws_stripNextTurn (body : List Node) : raws (stripNextTurn body) = raws body := by
  simp only [raws_eq_gather]
  exact gather_stripNextTurn _ rfl body

end Unscript.Node
