import Unscript.Flow.Analysis
import Unscript.Proofs.Tree.Run

/-!
# Paths through a graph

Outcomes of tests lead from block to block through a graph, up to its virtual block. A course
follows the graph from a point when it runs the blocks of the path from there and, if control
leaves it, the path goes on at the point that the way of leaving stands for.

* `Flow.path`: the path from a block, cut off after a number of blocks.
* `Flow.Follows`: a course follows the graph.

Results:
* `Flow.Follows.andThen`, `Flow.Follows.branch`, `Flow.Follows.turn`: courses put together follow
  the graph when their parts do.
* `Flow.Follows.loop`: a loop follows the graph when each of its turns does, and runs a block.
-/

namespace Unscript

/-- The block where control goes after an ending, and the outcomes left. -/
def Ending.follow (e : Ending) (outcomes : Stream'.Seq Bool) : Option (Nat × Stream'.Seq Bool) :=
  match e with
  | .jump t | .ret t | .fallthrough t => some (t, outcomes)
  | .cond a b | .iterBegin a b | .iterNext a b =>
    outcomes.head.map fun taken => (if taken then a else b, outcomes.tail)
  | .exit => none

/-- A point in a graph: before a block, or between the test of a block and its arms. -/
inductive Point where
  | block (id : Nat)
  | arms (whenTrue whenFalse : Nat)

/-- The points where the ways of leaving a piece of code lead; a way that leads nowhere is not
taken. -/
structure Ways where
  falls : Option Point := none
  turns : Option Point := none
  leaves : Option Point := none
  ends : Option Point := none

/-- The point where one way leads. -/
def Ways.of (w : Ways) : Sequel → Option Point
  | .falls => w.falls
  | .turns => w.turns
  | .leaves => w.leaves
  | .ends => w.ends

/-- A course does not leave before it has run a block. -/
def Course.Moves (c : Course) : Prop :=
  ∀ s s' way, c s ≠ ⟨[], some (way, s')⟩

/-- A course goes on with the next turn of a loop only when it has run a block. -/
def Course.Busy (c : Course) : Prop :=
  ∀ s s', c s ≠ ⟨[], some (.falls, s')⟩ ∧ c s ≠ ⟨[], some (.turns, s')⟩

namespace Flow

/-- The first blocks, at most `n` many, that control passes from a block on. -/
def path (f : Flow) : Nat → Nat → Stream'.Seq Bool → List Nat
  | 0, _, _ => []
  | n + 1, id, outcomes =>
    if id = f.exit then []
    else id ::
      match (f.ending id).follow outcomes with
      | some (next, rest) => path f n next rest
      | none => []

/-- The path from a point with a supply. -/
def pathFrom (f : Flow) : Point → Supply → List Nat
  | .block id, s => f.path s.blocks id s.outcomes
  | .arms a b, s =>
    match s.outcomes.head with
    | some taken => f.path s.blocks (if taken then a else b) s.outcomes.tail
    | none => []

variable {f : Flow} {p q : Point} {w : Ways} {a b c : Course} {s : Supply}

theorem pathFrom_of_blocks_eq_zero (h : s.blocks = 0) : f.pathFrom p s = [] := by
  cases p with
  | block id =>
    simp only [pathFrom, h, path]
  | arms x y =>
    simp only [pathFrom, h, path]
    cases s.outcomes.head <;> rfl

/-- A run agrees with the path from a point: it is the path when it stops, and leads to the point
where its way of leaving does otherwise. -/
def Agrees (f : Flow) (p : Point) (w : Ways) (s : Supply) (r : Run) : Prop :=
  match r.rest with
  | none => r.trace = f.pathFrom p s
  | some (way, s') => ∃ next, w.of way = some next ∧
      f.pathFrom p s = r.trace ++ f.pathFrom next s' ∧ r.trace.length + s'.blocks = s.blocks

/-- A course follows the graph from a point. -/
def Follows (f : Flow) (c : Course) (p : Point) (w : Ways) : Prop :=
  ∀ s, f.Agrees p w s (c s)

/-- The point after a block. -/
def pointAfter (f : Flow) (id : Nat) : Option Point :=
  match f.ending id with
  | .jump t | .ret t | .fallthrough t => some (.block t)
  | .cond a b | .iterBegin a b | .iterNext a b => some (.arms a b)
  | .exit => none

/-! ## Simple courses -/

theorem Follows.mono {w' : Ways} (hw : ∀ way next, w.of way = some next → w'.of way = some next)
    (h : f.Follows c p w) : f.Follows c p w' := by
  intro s
  have hs := h s
  unfold Agrees at hs ⊢
  split at hs
  · exact hs
  · obtain ⟨next, hnext, hpath, hlen⟩ := hs
    exact ⟨next, hw _ _ hnext, hpath, hlen⟩

theorem follows_skip {way : Sequel} (h : w.of way = some p) : f.Follows (Course.skip way) p w :=
  fun _ => ⟨p, h, rfl, Nat.zero_add _⟩

/-- Running a block leads to the point after it. -/
theorem follows_emit {id : Nat} (hid : id ≠ f.exit) (hp : f.pointAfter id = some q)
    (hw : w.falls = some q) : f.Follows (Course.emit id) (.block id) w := by
  intro s
  unfold Course.emit
  split
  · rename_i h0
    exact (pathFrom_of_blocks_eq_zero h0).symm
  · rename_i n hn
    have hpath : f.pathFrom (.block id) s = [id] ++ f.pathFrom q { s with blocks := n } := by
      simp only [pathFrom, hn, path, if_neg hid, List.singleton_append, List.cons.injEq, true_and]
      unfold pointAfter at hp
      cases hending : f.ending id <;> rw [hending] at hp <;> cases hp <;>
        simp only [Ending.follow] <;> cases s.outcomes.head <;> rfl
    refine ⟨q, hw, hpath, ?_⟩
    rw [hn]
    exact Nat.add_comm _ _

/-! ## Courses put together -/

theorem Agrees.prepend {r : Run} {t : List Nat} {s' : Supply}
    (hpath : f.pathFrom p s = t ++ f.pathFrom q s') (hlen : t.length + s'.blocks = s.blocks)
    (h : f.Agrees q w s' r) : f.Agrees p w s (r.prepend t) := by
  obtain ⟨trace, _ | ⟨way, s₂⟩⟩ := r
  · have htrace : trace = f.pathFrom q s' := h
    show t ++ trace = f.pathFrom p s
    rw [htrace, hpath]
  · obtain ⟨next, hnext, hpath', hlen'⟩ := h
    refine ⟨next, hnext, ?_, ?_⟩
    · show f.pathFrom p s = (t ++ trace) ++ f.pathFrom next s₂
      rw [hpath, hpath', List.append_assoc]
    · show (t ++ trace).length + s₂.blocks = s.blocks
      rw [List.length_append, Nat.add_assoc, hlen', hlen]

/-- The path from a point may be that from another one. -/
theorem Agrees.ofSame {r : Run} {s' : Supply} (hpath : f.pathFrom p s = f.pathFrom q s')
    (hlen : s'.blocks = s.blocks) (h : f.Agrees q w s' r) : f.Agrees p w s r := by
  unfold Agrees at h ⊢
  rw [hpath, ← hlen]
  exact h

/-- A run that leaves in a way which two ways agree on, or stops, agrees with both. -/
theorem Agrees.congr {w' : Ways} {r : Run} (h : f.Agrees p w s r)
    (hw : ∀ way s', r.rest = some (way, s') → w.of way = w'.of way) : f.Agrees p w' s r := by
  obtain ⟨trace, _ | ⟨way, s'⟩⟩ := r
  · exact h
  · obtain ⟨next, hnext, hpath⟩ := h
    exact ⟨next, hw way s' rfl ▸ hnext, hpath⟩

/-- One course after another. -/
theorem Follows.andThen {o : Option Point} (ha : f.Follows a p { w with falls := o })
    (hb : ∀ q, o = some q → f.Follows b q w) : f.Follows (Course.andThen a b) p w := by
  intro s
  have h := ha s
  unfold Course.andThen
  split
  · rename_i t s' hrun
    rw [hrun] at h
    obtain ⟨next, hnext, hpath, hlen⟩ := h
    exact (hb next hnext s').prepend hpath hlen
  · rename_i hne
    refine h.congr fun way s' hrest => ?_
    cases way with
    | falls => exact absurd (by rw [← hrest]) (hne (a s).trace s')
    | turns => rfl
    | leaves => rfl
    | ends => rfl

/-- A choice between two arms. -/
theorem Follows.branch {x y : Nat} (ha : f.Follows a (.block x) w) (hb : f.Follows b (.block y) w) :
    f.Follows (Course.branch a b) (.arms x y) w := by
  intro s
  unfold Course.branch
  cases hhead : s.outcomes.head with
  | none =>
    show [] = f.pathFrom (.arms x y) s
    simp only [pathFrom, hhead]
  | some taken =>
    have hpath (z : Nat) (hz : z = if taken then x else y) : f.pathFrom (.arms x y) s =
        f.pathFrom (.block z) { s with outcomes := s.outcomes.tail } := by
      simp only [pathFrom, hhead, hz]
    cases taken with
    | true => exact (ha { s with outcomes := s.outcomes.tail }).ofSame (hpath x rfl) rfl
    | false => exact (hb { s with outcomes := s.outcomes.tail }).ofSame (hpath y rfl) rfl

/-- A turn of an iteration. -/
theorem Follows.turn (ha : f.Follows a p { w with falls := some q, turns := some q })
    (hb : f.Follows b q w) : f.Follows (Course.turn a b) p w := by
  intro s
  have h := ha s
  unfold Course.turn
  split
  · rename_i t s' hrun
    rw [hrun] at h
    obtain ⟨next, hnext, hpath, hlen⟩ := h
    cases hnext
    exact (hb s').prepend hpath hlen
  · rename_i t s' hrun
    rw [hrun] at h
    obtain ⟨next, hnext, hpath, hlen⟩ := h
    cases hnext
    exact (hb s').prepend hpath hlen
  · rename_i hfalls hturns
    refine h.congr fun way s' hrest => ?_
    cases way with
    | falls => exact absurd (by rw [← hrest]) (hfalls (a s).trace s')
    | turns => exact absurd (by rw [← hrest]) (hturns (a s).trace s')
    | leaves => rfl
    | ends => rfl

/-- Every turn that goes on runs a block, so there are no more turns than blocks. -/
theorem agrees_again {exits : Option Point} (hc : c.Busy)
    (h : f.Follows c p { falls := some p, turns := some p, leaves := exits, ends := w.ends })
    (hw : w.falls = exits) {n : Nat} (hn : s.blocks < n) : f.Agrees p w s (Course.again c n s) := by
  induction n generalizing s with
  | zero => exact absurd hn (Nat.not_lt_zero _)
  | succ n ih =>
    have hs := h s
    have hnext {t : List Nat} {s' : Supply} (ht : t ≠ []) (hlen : t.length + s'.blocks = s.blocks) :
        s'.blocks < n := by
      have := List.length_pos_iff.mpr ht
      omega
    unfold Course.again
    split
    · rename_i t s' hrun
      rw [hrun] at hs
      obtain ⟨_, ⟨⟩, hpath, hlen⟩ := hs
      have ht : t ≠ [] := fun h0 => (hc s s').1 (h0 ▸ hrun)
      exact (ih (hnext ht hlen)).prepend hpath hlen
    · rename_i t s' hrun
      rw [hrun] at hs
      obtain ⟨_, ⟨⟩, hpath, hlen⟩ := hs
      have ht : t ≠ [] := fun h0 => (hc s s').2 (h0 ▸ hrun)
      exact (ih (hnext ht hlen)).prepend hpath hlen
    · rename_i t s' hrun
      rw [hrun] at hs
      obtain ⟨next, hleaves, hpath⟩ := hs
      exact ⟨next, hw.trans hleaves, hpath⟩
    · rename_i hfalls hturns hleaves
      refine hs.congr fun way s' hrest => ?_
      cases way with
      | falls => exact absurd (by rw [← hrest]) (hfalls (c s).trace s')
      | turns => exact absurd (by rw [← hrest]) (hturns (c s).trace s')
      | leaves => exact absurd (by rw [← hrest]) (hleaves (c s).trace s')
      | ends => rfl

/-- A loop follows the graph when its turns do. -/
theorem Follows.loop (hc : c.Busy)
    (h : f.Follows c p { falls := some p, turns := some p, leaves := w.falls, ends := w.ends }) :
    f.Follows (Course.loop c) p w :=
  fun s => agrees_again hc h rfl (Nat.lt_succ_self s.blocks)

end Flow

/-! ## Courses that run a block -/

namespace Course

variable {a b : Course}

theorem Moves.busy (ha : a.Moves) : a.Busy :=
  fun s s' => ⟨ha s s' _, ha s s' _⟩

theorem moves_emit (id : Nat) : (emit id).Moves := by
  intro s s' way
  unfold emit
  split <;> simp

/-- What begins with a block runs one. -/
theorem Moves.andThen (ha : a.Moves) (b : Course) : (a.andThen b).Moves := by
  intro s s' way
  unfold Course.andThen
  split
  · rename_i t s₁ hrun
    have ht : t ≠ [] := fun h0 => ha s s₁ _ (h0 ▸ hrun)
    exact fun h => ht (List.append_eq_nil_iff.mp (congrArg Run.trace h)).1
  · exact ha s s' way

/-- A loop runs a block when its first turn does. -/
theorem Moves.loop (ha : a.Moves) : (Course.loop a).Moves := by
  intro s s' way
  have hprepend {t : List Nat} {r : Run} (ht : t ≠ []) : r.prepend t ≠ ⟨[], some (way, s')⟩ :=
    fun h => ht (List.append_eq_nil_iff.mp (congrArg Run.trace h)).1
  unfold Course.loop again
  split
  · rename_i t s₁ hrun
    exact hprepend fun h0 => ha s s₁ _ (h0 ▸ hrun)
  · rename_i t s₁ hrun
    exact hprepend fun h0 => ha s s₁ _ (h0 ▸ hrun)
  · rename_i t s₁ hrun
    intro h
    have ht : t = [] := congrArg Run.trace h
    exact ha s s₁ _ (ht ▸ hrun)
  · exact ha s s' way

/-- A turn runs a block when it advances by one. -/
theorem Moves.busy_turn (a : Course) (hb : b.Moves) : (turn a b).Busy := by
  have hne (s s' : Supply) (way : Sequel) (hway : way = .falls ∨ way = .turns) :
      turn a b s ≠ ⟨[], some (way, s')⟩ := by
    have hadvance (t : List Nat) (s₁ : Supply) : (b s₁).prepend t ≠ ⟨[], some (way, s')⟩ := by
      intro h
      have htrace := (List.append_eq_nil_iff.mp (congrArg Run.trace h)).2
      have hrest : (b s₁).rest = some (way, s') := congrArg Run.rest h
      exact hb s₁ s' way (Run.ext htrace hrest)
    unfold turn
    split
    · exact hadvance _ _
    · exact hadvance _ _
    · rename_i hfalls hturns
      rcases hway with rfl | rfl
      · exact hfalls _ _
      · exact hturns _ _
  exact fun s s' => ⟨hne s s' _ (.inl rfl), hne s s' _ (.inr rfl)⟩

end Course

end Unscript
