/-!
# Sets of blocks

A set of block ids is kept as the bits of a number, so that equal sets are equal values.

* `BlockSet.mem_inter`, `mem_union`, `mem_insert` and `mem_diff` say what the operations do to
  membership; `ext` that a set is its members.
-/

namespace Unscript

-- Powers are those of `NatPow`, whichever other instances a proof brings into scope.
attribute [local instance (1100)] instPowNat

/-- A finite set of block ids. -/
structure BlockSet where
  bits : Nat
  deriving DecidableEq, Repr

namespace BlockSet

/-- Whether a block is in the set. -/
def contains (s : BlockSet) (i : Nat) : Bool :=
  s.bits.testBit i

instance : Membership Nat BlockSet where
  mem s i := s.contains i = true

instance (i : Nat) (s : BlockSet) : Decidable (i ∈ s) :=
  inferInstanceAs (Decidable (s.contains i = true))

/-- The set without members. -/
def empty : BlockSet := ⟨0⟩

/-- The set with one more member. -/
def insert (s : BlockSet) (i : Nat) : BlockSet := ⟨s.bits ||| 2 ^ i⟩

/-- The set of one member. -/
def single (i : Nat) : BlockSet := ⟨2 ^ i⟩

/-- The common members. -/
def inter (s t : BlockSet) : BlockSet := ⟨s.bits &&& t.bits⟩

/-- The members of either set. -/
def union (s t : BlockSet) : BlockSet := ⟨s.bits ||| t.bits⟩

/-- The members of the first set that are not in the second. -/
def diff (s t : BlockSet) : BlockSet := ⟨s.bits ^^^ (s.bits &&& t.bits)⟩

/-- The set of a list's members. -/
def ofList (xs : List Nat) : BlockSet := xs.foldl insert empty

/-- The members in ascending order. -/
def toList (s : BlockSet) : List Nat :=
  (List.range (s.bits.log2 + 1)).filter s.contains

/-- Whether all members of the first set are in the second. -/
def subset (s t : BlockSet) : Bool := s.inter t == s

theorem mem_iff {i : Nat} {s : BlockSet} : i ∈ s ↔ s.bits.testBit i = true := Iff.rfl

@[ext] theorem ext {s t : BlockSet} (h : ∀ i, i ∈ s ↔ i ∈ t) : s = t := by
  obtain ⟨a⟩ := s
  obtain ⟨b⟩ := t
  congr
  exact Nat.eq_of_testBit_eq fun i => Bool.eq_iff_iff.2 (h i)

@[simp] theorem not_mem_empty (i : Nat) : i ∉ empty := by
  simp [mem_iff, empty]

@[simp] theorem mem_single {i j : Nat} : i ∈ single j ↔ i = j := by
  rw [mem_iff, single, Nat.testBit_two_pow, decide_eq_true_eq]
  exact eq_comm

@[simp] theorem mem_insert {i j : Nat} {s : BlockSet} : i ∈ s.insert j ↔ i ∈ s ∨ i = j := by
  rw [mem_iff, insert, Nat.testBit_or, Nat.testBit_two_pow, Bool.or_eq_true, decide_eq_true_eq]
  exact or_congr Iff.rfl eq_comm

@[simp] theorem mem_inter {i : Nat} {s t : BlockSet} : i ∈ s.inter t ↔ i ∈ s ∧ i ∈ t := by
  simp [mem_iff, inter]

@[simp] theorem mem_union {i : Nat} {s t : BlockSet} : i ∈ s.union t ↔ i ∈ s ∨ i ∈ t := by
  simp [mem_iff, union]

@[simp] theorem mem_diff {i : Nat} {s t : BlockSet} : i ∈ s.diff t ↔ i ∈ s ∧ i ∉ t := by
  simp only [mem_iff, diff, Nat.testBit_xor, Nat.testBit_and]
  cases s.bits.testBit i <;> cases t.bits.testBit i <;> simp

end BlockSet

end Unscript
