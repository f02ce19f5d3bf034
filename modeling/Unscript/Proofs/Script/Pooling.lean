import Unscript.Proofs.Registry.Concrete
import Unscript.Proofs.Script.Drafting

/-!
# Constants asked for while a function is assembled

Every step that asks for a constant is given an index of the constant pool, which only grows. The
pool compares floating point numbers as numbers. So an index that is given stands for the constant
that was asked for, except that of the two zeros the one that was asked for first stands for both,
and two constants share an index only if they are equal or the two zeros.

* `Constant.IsTwin`: the two zeros.
* `Constant.unsigned`: a constant, with a zero for its sign dropped.
* `FunctionDraft.answers`: the constants that steps ask for, with the indices they are given.
* `FunctionDraft.Keeps`, `FunctionDraft.Answers`: what a pool makes of the answers.

Results:
* `Constant.same_iff`: which constants can share an index.
* `FunctionDraft.Keeps.constant`: one more constant that is asked for.
* `FunctionDraft.keeps_run`: all constants that are asked for.
* `FunctionDraft.answers_run`: the answers of a run, and of every run that goes on from it.
-/

namespace Unscript

open Number (Double)

/-! ## Constants that can share an index -/

namespace Number.Double

variable {a b : Double}

/-- The number, or the positive zero for both zeros. -/
def unsigned (d : Double) : Double :=
  if d.isZero then ⟨0⟩ else d

/-- No zero is a NaN. -/
theorem isNaN_of_isZero (h : a.isZero = true) : a.isNaN = false := by
  unfold isZero at h
  unfold isNaN
  rw [Bool.and_eq_true, beq_iff_eq] at h
  rw [h.1]
  rfl

theorem unsigned_eq_iff : a.unsigned = b.unsigned ↔
    a = b ∨ a.isZero = true ∧ b.isZero = true ∧ a ≠ b := by
  have hzero : (⟨0⟩ : Double).isZero = true := rfl
  unfold unsigned
  by_cases ha : a.isZero = true <;> by_cases hb : b.isZero = true
  · rw [if_pos ha, if_pos hb]
    simp only [ha, hb, true_and, true_iff]
    exact em _
  · rw [if_pos ha, if_neg hb]
    refine iff_of_false (fun h => hb (h ▸ hzero)) ?_
    rintro (rfl | ⟨-, h, -⟩)
    · exact hb ha
    · exact hb h
  · rw [if_neg ha, if_pos hb]
    refine iff_of_false (fun h => ha (h ▸ hzero)) ?_
    rintro (rfl | ⟨h, -⟩)
    · exact ha hb
    · exact ha h
  · rw [if_neg ha, if_neg hb]
    exact (or_iff_left fun h => ha h.1).symm

/-- **Numbers are equal** if they are equal but for the sign of a zero, and are no NaN. -/
theorem same_iff : a.same b = true ↔ a.unsigned = b.unsigned ∧ a.isNaN = false := by
  rw [unsigned_eq_iff]
  simp only [same, Bool.and_eq_true, Bool.or_eq_true, Bool.not_eq_true', beq_iff_eq]
  constructor
  · rintro ⟨⟨hnan, -⟩, rfl | ⟨ha, hb⟩⟩
    · exact ⟨.inl rfl, hnan⟩
    · exact ⟨(em (a = b)).imp_right fun hne => ⟨ha, hb, hne⟩, hnan⟩
  · rintro ⟨rfl | ⟨ha, hb, -⟩, hnan⟩
    · exact ⟨⟨hnan, hnan⟩, .inl rfl⟩
    · exact ⟨⟨hnan, isNaN_of_isZero hb⟩, .inr ⟨ha, hb⟩⟩

end Number.Double

namespace Constant

/-- Whether the constant is a NaN. -/
def isNaN : Constant → Bool
  | .float d => d.isNaN
  | _ => false

/-- The two zeros: they are equal as numbers and differ in their sign bits. -/
def IsTwin (c c' : Constant) : Prop :=
  ∃ a b : Double, c = .float a ∧ c' = .float b ∧ a.isZero = true ∧ b.isZero = true ∧ a ≠ b

/-- The constant, or the positive zero for both zeros. -/
def unsigned : Constant → Constant
  | .float d => .float d.unsigned
  | c => c

variable {c c' : Constant}

/-- **Constants share an index** if they are equal but for the sign of a zero, and are no NaN. -/
theorem same_iff : c.same c' = true ↔ c.unsigned = c'.unsigned ∧ c.isNaN = false := by
  cases c <;> cases c' <;>
    simp only [same, unsigned, isNaN, Double.same_iff, float.injEq, beq_iff_eq, and_true,
      reduceCtorEq, false_and]

theorem unsigned_eq_iff : c.unsigned = c'.unsigned ↔ c = c' ∨ c.IsTwin c' := by
  cases c <;> cases c' <;>
    simp [unsigned, IsTwin, Double.unsigned_eq_iff]

theorem IsTwin.kindName_eq (h : c.IsTwin c') : c.kindName = c'.kindName := by
  obtain ⟨a, b, rfl, rfl, -⟩ := h
  rfl

theorem isNaN_congr (h : c.unsigned = c'.unsigned) : c.isNaN = c'.isNaN := by
  rcases unsigned_eq_iff.mp h with rfl | h
  · rfl
  · obtain ⟨a, b, rfl, rfl, ha, hb, -⟩ := h
    exact (Double.isNaN_of_isZero ha).trans (Double.isNaN_of_isZero hb).symm

theorem same_symm (h : c.same c' = true) : c'.same c = true := by
  obtain ⟨hunsigned, hnan⟩ := same_iff.mp h
  exact same_iff.mpr ⟨hunsigned.symm, isNaN_congr hunsigned ▸ hnan⟩

end Constant

namespace FunctionDraft

/-! ## Answers -/

/-- What a step is told: the constant it asks for and its index. -/
def Step.answer? (f : FunctionDraft) : Step → Option (Constant × Nat)
  | .constant c => some (c, (f.constant c).1)
  | .label _ | .emit _ | .useLocal _ => none

/-- The constants that steps ask for, with the indices they are given. -/
def answers (f : FunctionDraft) : List Step → List (Constant × Nat)
  | [] => []
  | s :: steps => (s.answer? f).toList ++ answers (f.attempt s) steps

/-- **What a pool makes of the answers**, the sign of zeros left out. -/
structure Keeps (asked : List (Constant × Nat)) (pool : List Constant) : Prop where
  /-- At an index, the pool has what was given the index first. -/
  first : ∀ n, pool[n]? = (asked.find? (·.2 == n)).map Prod.fst
  valid : ∀ p ∈ asked, ∃ c, pool[p.2]? = some c ∧ c.unsigned = p.1.unsigned
  /-- No constant of the pool can share its index with another one. -/
  apart : pool.Pairwise fun c c' : Constant => c.same c' = false
  shared : asked.Pairwise fun p q : Constant × Nat => p.2 = q.2 ↔ p.1.same q.1 = true

variable {f : FunctionDraft} {asked : List (Constant × Nat)} {pool : List Constant}
  {c c' : Constant} {s : Step} {n : Nat}

theorem answers_append (f : FunctionDraft) (steps steps' : List Step) :
    f.answers (steps ++ steps') = f.answers steps ++ (f.run steps).answers steps' := by
  induction steps generalizing f with
  | nil => rfl
  | cons s steps ih =>
    rw [List.cons_append, answers, answers, ih, List.append_assoc]
    rfl

namespace Keeps

theorem nil : Keeps [] [] where
  first _ := rfl
  valid _ hp := nomatch hp
  apart := .nil
  shared := .nil

/-- Constants of the pool that can share an index stand at one index. -/
theorem eq_of_same (h : Keeps asked pool) {m : Nat} (hm : pool[m]? = some c)
    (hn : pool[n]? = some c') (hsame : c.same c' = true) : m = n := by
  obtain ⟨hm', rfl⟩ := List.getElem?_eq_some_iff.mp hm
  obtain ⟨hn', rfl⟩ := List.getElem?_eq_some_iff.mp hn
  have hapart := List.pairwise_iff_getElem.mp h.apart
  by_contra hne
  rcases Nat.lt_or_gt_of_ne hne with hlt | hlt
  · rw [hapart m n hm' hn' hlt] at hsame
    cases hsame
  · have hsame := Constant.same_symm hsame
    rw [hapart n m hn' hm' hlt] at hsame
    cases hsame

/-- **A constant of the pool** is asked for again. -/
theorem found (h : Keeps asked pool) (hn : pool[n]? = some c') (hsame : c.same c' = true) :
    Keeps (asked ++ [(c, n)]) pool where
  first m := by
    rw [List.find?_append, h.first m]
    cases hfind : asked.find? (·.2 == m) with
    | some p => rfl
    | none =>
      have hm := h.first m
      rw [hfind] at hm
      have hne : (n == m) = false := beq_false_of_ne fun heq => by
        rw [heq, hm] at hn
        cases hn
      rw [List.find?_singleton, hne]
      rfl
  valid := by
    rw [List.forall_mem_append, List.forall_mem_singleton]
    exact ⟨h.valid, c', hn, (Constant.same_iff.mp hsame).1.symm⟩
  apart := h.apart
  shared := by
    refine List.pairwise_append.mpr ⟨h.shared, List.pairwise_singleton _ _, fun p hp q hq => ?_⟩
    obtain rfl := List.mem_singleton.mp hq
    obtain ⟨d, hd, hkey⟩ := h.valid p hp
    obtain ⟨hunsigned, hnan⟩ := Constant.same_iff.mp (Constant.same_symm hsame)
    constructor
    · rintro rfl
      obtain rfl : d = c' := Option.some.inj (hd.symm.trans hn)
      exact Constant.same_iff.mpr ⟨hkey.symm.trans hunsigned, Constant.isNaN_congr hkey ▸ hnan⟩
    · intro hp
      obtain ⟨hp, hnan⟩ := Constant.same_iff.mp hp
      refine h.eq_of_same hd hn (Constant.same_iff.mpr ⟨?_, (Constant.isNaN_congr hkey).trans hnan⟩)
      exact (hkey.trans hp).trans hunsigned.symm

/-- **A constant that the pool lacks** is added. -/
theorem added (h : Keeps asked pool) (hnew : ∀ c' ∈ pool, c.same c' = false) :
    Keeps (asked ++ [(c, pool.length)]) (pool ++ [c]) where
  first m := by
    have hm := h.first m
    rw [List.find?_append]
    cases hfind : asked.find? (·.2 == m) with
    | some p =>
      rw [hfind] at hm
      have hlt := (List.getElem?_eq_some_iff.mp hm).1
      rw [List.getElem?_append_left hlt, hm]
      rfl
    | none =>
      rw [hfind] at hm
      have hle := List.getElem?_eq_none_iff.mp hm
      rw [List.getElem?_append_right hle, List.find?_singleton]
      by_cases heq : pool.length = m
      · subst heq
        simp
      · have hpos : m - pool.length ≠ 0 := by omega
        simp [heq, hpos]
  valid := by
    rw [List.forall_mem_append, List.forall_mem_singleton]
    refine ⟨fun p hp => ?_, c, List.getElem?_concat_length, rfl⟩
    obtain ⟨d, hd, hkey⟩ := h.valid p hp
    exact ⟨d, (List.getElem?_append_left (List.getElem?_eq_some_iff.mp hd).1).trans hd, hkey⟩
  apart := by
    refine List.pairwise_append.mpr ⟨h.apart, List.pairwise_singleton _ _, fun d hd x hx => ?_⟩
    obtain rfl := List.mem_singleton.mp hx
    rw [← Bool.not_eq_true]
    intro hsame
    have hsame := Constant.same_symm hsame
    rw [hnew d hd] at hsame
    cases hsame
  shared := by
    refine List.pairwise_append.mpr ⟨h.shared, List.pairwise_singleton _ _, fun p hp q hq => ?_⟩
    obtain rfl := List.mem_singleton.mp hq
    obtain ⟨d, hd, hkey⟩ := h.valid p hp
    obtain ⟨hlt, rfl⟩ := List.getElem?_eq_some_iff.mp hd
    refine iff_of_false (Nat.ne_of_lt hlt) fun hsame => ?_
    obtain ⟨hunsigned, hnan⟩ := Constant.same_iff.mp (Constant.same_symm hsame)
    have hsame := Constant.same_iff.mpr ⟨hunsigned.trans hkey.symm, hnan⟩
    rw [hnew _ (List.getElem_mem hlt)] at hsame
    cases hsame

/-- **One more constant** that is asked for. -/
theorem constant (h : Keeps asked f.pool) (c : Constant) :
    Keeps (asked ++ [(c, (f.constant c).1)]) (f.constant c).2.pool := by
  unfold FunctionDraft.constant
  cases hfind : f.pool.findIdx? (c.same ·) with
  | some n =>
    obtain ⟨hlt, hsame, -⟩ := List.findIdx?_eq_some_iff_getElem.mp hfind
    exact h.found (List.getElem?_eq_getElem hlt) hsame
  | none =>
    exact h.added fun c' hc' => List.findIdx?_eq_none_iff.mp hfind c' hc'

end Keeps

/-! ## Runs -/

/-- A step asks for a constant, or it has no answer and leaves the pool as it is. -/
theorem pool_attempt (f : FunctionDraft) (s : Step) :
    (∃ c, s = .constant c) ∨ s.answer? f = none ∧ (f.attempt s).pool = f.pool := by
  cases s with
  | constant c => exact .inl ⟨c, rfl⟩
  | useLocal slot => exact .inr ⟨rfl, rfl⟩
  | label name =>
    refine .inr ⟨rfl, ?_⟩
    obtain hfails | ⟨-, hplaced⟩ := label_cases f name
    · rw [attempt_of_error (s := .label name) hfails]
    · rw [attempt_of_ok (s := .label name) hplaced]
  | emit i =>
    refine .inr ⟨rfl, ?_⟩
    obtain ⟨e, hfails⟩ | ⟨_, _, -, -, hemitted⟩ := emit_cases f i
    · rw [attempt_of_error (s := .emit i) hfails]
    · rw [attempt_of_ok (s := .emit i) hemitted, useLocals_eq]

/-- **A step** and its answer. -/
theorem Keeps.attempt (h : Keeps asked f.pool) (s : Step) :
    Keeps (asked ++ (s.answer? f).toList) (f.attempt s).pool := by
  obtain ⟨c, rfl⟩ | ⟨hanswer, hpool⟩ := pool_attempt f s
  · exact h.constant c
  · rw [hanswer, hpool, Option.toList_none, List.append_nil]
    exact h

/-- **All constants** that are asked for in a run. -/
theorem keeps_run (h : Keeps asked f.pool) (steps : List Step) :
    Keeps (asked ++ f.answers steps) (f.run steps).pool := by
  induction steps generalizing f asked with
  | nil =>
    rw [answers, List.append_nil]
    exact h
  | cons s steps ih =>
    have hrest := ih (h.attempt s)
    rw [List.append_assoc] at hrest
    exact hrest

/-- The pool only grows. -/
theorem pool_prefix_run (f : FunctionDraft) (steps : List Step) :
    f.pool <+: (f.run steps).pool := by
  induction steps generalizing f with
  | nil => exact List.prefix_rfl
  | cons s steps ih =>
    refine List.IsPrefix.trans ?_ (ih (f.attempt s))
    obtain ⟨c, rfl⟩ | ⟨-, hpool⟩ := pool_attempt f s
    · show f.pool <+: (f.constant c).2.pool
      unfold FunctionDraft.constant
      split
      · exact List.prefix_rfl
      · exact List.prefix_append _ _
    · exact hpool.symm ▸ List.prefix_rfl

/-- **What a pool makes of the answers.** -/
structure Answers (asked : List (Constant × Nat)) (pool : List Constant) : Prop where
  /-- At an index, the pool has what was given the index first. -/
  first : ∀ n, pool[n]? = (asked.find? (·.2 == n)).map Prod.fst
  /-- An index that was given is one of the pool, and stands for a constant of the kind that was
  asked for: this constant, or its twin. -/
  valid : ∀ p ∈ asked, ∃ c, pool[p.2]? = some c ∧ c.kindName = p.1.kindName ∧
    (c = p.1 ∨ c.IsTwin p.1)
  /-- It stands for the constant that was asked for, unless its twin was asked for as well. -/
  exact : ∀ p ∈ asked, (∀ q ∈ asked, ¬ q.1.IsTwin p.1) → pool[p.2]? = some p.1
  /-- Two constants that are not both NaNs are given one index if they are equal or twins, and only
  then. -/
  shared : asked.Pairwise fun p q : Constant × Nat => p.1.isNaN = false ∨ q.1.isNaN = false →
    (p.2 = q.2 ↔ p.1 = q.1 ∨ p.1.IsTwin q.1)

theorem Keeps.answers (h : Keeps asked pool) : Answers asked pool where
  first := h.first
  valid p hp := by
    obtain ⟨c, hc, hkey⟩ := h.valid p hp
    have hone := Constant.unsigned_eq_iff.mp hkey
    exact ⟨c, hc, hone.elim (fun heq => congrArg _ heq) Constant.IsTwin.kindName_eq, hone⟩
  exact p hp hlone := by
    obtain ⟨c, hc, hkey⟩ := h.valid p hp
    rcases Constant.unsigned_eq_iff.mp hkey with rfl | htwin
    · exact hc
    · have hfirst := h.first p.2
      rw [hc, eq_comm, Option.map_eq_some_iff] at hfirst
      obtain ⟨q, hq, rfl⟩ := hfirst
      exact absurd htwin (hlone q (List.mem_of_find?_eq_some hq))
  shared := h.shared.imp fun {p q} hiff hnumber => by
    rw [hiff, Constant.same_iff, ← Constant.unsigned_eq_iff]
    exact and_iff_left_of_imp fun hkey => hnumber.elim id (Constant.isNaN_congr hkey).trans

/-- **The constants of a function.** Whatever steps assemble a function from its start, and
whichever of them fail: every index that was given is one of the pool and stands for a constant of
the kind and value that were asked for, except that the zero that was asked for first stands for
both zeros. Two constants that are not both NaNs are given one index exactly if they are equal or the
two zeros. Steps that follow change none of this: they add answers behind those before, and constants
behind those before. -/
theorem answers_run (d : Dialect) (name : String) (index arguments locals : Nat)
    (localNames : List String) (isStatic : Bool) (steps more : List Step) :
    let f := start d name index arguments locals localNames isStatic
    Answers (f.answers steps) (f.run steps).pool ∧
      f.answers steps <+: f.answers (steps ++ more) ∧
      (f.run steps).pool <+: (f.run (steps ++ more)).pool := by
  intro f
  refine ⟨?_, ?_, ?_⟩
  · exact (keeps_run (f := f) .nil steps).answers
  · rw [answers_append]
    exact List.prefix_append _ _
  · rw [run_append]
    exact pool_prefix_run _ more

/-- The two zeros, a one that is asked for twice, and a NaN. -/
theorem answers_run_zeros :
    let f := start Registry.oldest "f" 0
    let steps : List Step := [.constant (.float ⟨0⟩), .constant (.int 1),
      .constant (.float ⟨0x8000000000000000⟩), .constant (.float ⟨0x7ff8000000000000⟩),
      .constant (.int 1)]
    (f.answers steps).map Prod.snd = [0, 1, 0, 2, 1] ∧
      Answers (f.answers steps) (f.run steps).pool :=
  ⟨by decide +kernel, (answers_run Registry.oldest "f" 0 0 0 [] false _ []).1⟩

/-- **Not every index** stands for exactly the constant that was asked for, and constants that
differ can share one. -/
theorem not_forall_answers_exact :
    ¬ ∀ (d : Dialect) (name : String) (steps : List Step),
      let f := start d name 0
      (∀ p ∈ f.answers steps, p.1.isNaN = false → (f.run steps).pool[p.2]? = some p.1) ∧
        (f.answers steps).Pairwise fun p q => p.1.isNaN = false → (p.2 = q.2 ↔ p.1 = q.1) := by
  intro h
  have hexact := (h Registry.oldest "f"
    [.constant (.float ⟨0⟩), .constant (.float ⟨0x8000000000000000⟩)]).1
    (.float ⟨0x8000000000000000⟩, 0) (by decide +kernel) (by decide +kernel)
  revert hexact
  decide +kernel

end FunctionDraft

end Unscript
