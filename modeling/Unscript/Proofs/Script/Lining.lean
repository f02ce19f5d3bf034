import Mathlib.Data.List.TakeWhile
import Mathlib.Data.Prod.Lex
import Unscript.Proofs.Script.Records
import Unscript.Proofs.Script.Reencoding

/-!
# Lines of instructions

A line table gives a line to every instruction from the offset of an entry on, up to the next one.
It is merged into the instructions in one pass over both: the entries are put in order first, and
those passed are never looked at again. What comes out is what the table says of each instruction
alone, however its entries are arranged.

* `IsLastEntry`: the last entry at or before an offset, in the order of offset and line.
* `LineAt`: the line that a table gives to an offset.
* `Instruction.LinedBy`: an instruction with the line that a table gives it.

Results:
* `lineAt_takeWhile`: in a table in order, the last of the entries passed gives the line.
* `Decode.linedBy_mergeLines`: the pass over entries and instructions, from any point on.
* `Decode.linedBy_applyLines`: every instruction gets the line that the table gives to its offset.
* `Decode.applyLines_congr`: neither the arrangement of the entries nor repetition matters.
* `Script.lineAt_of_mem`: the lines of functions that were decoded to their ends.
-/

namespace Unscript

/-! ## What a line table says -/

/-- The last of the entries at or before an offset, in the order of offset and line. -/
structure IsLastEntry (lines : List (Nat × Nat)) (offset : Nat) (e : Nat × Nat) : Prop where
  mem : e ∈ lines
  reached : e.1 ≤ offset
  last : ∀ e' ∈ lines, e'.1 ≤ offset → toLex e' ≤ toLex e

/-- The line that a table gives to an offset: that of the last entry at or before it, and none if
there is no such entry. -/
inductive LineAt (lines : List (Nat × Nat)) (offset : Nat) : Option Nat → Prop where
  | entry {e : Nat × Nat} (h : IsLastEntry lines offset e) : LineAt lines offset (some e.2)
  | none (h : ∀ e ∈ lines, offset < e.1) : LineAt lines offset none

/-- An instruction with the line that a table gives to its offset, and nothing else changed. Where
the table gives no line, the instruction stays as it is. -/
def Instruction.LinedBy (lines : List (Nat × Nat)) (i j : Instruction) : Prop :=
  ∃ line, LineAt lines i.offset line ∧ j = { i with line := line.or i.line }

section Tables

variable {lines lines' : List (Nat × Nat)} {offset : Nat}

theorem IsLastEntry.unique {e e' : Nat × Nat} (h : IsLastEntry lines offset e)
    (h' : IsLastEntry lines offset e') : e = e' :=
  toLex.injective (le_antisymm (h'.last e h.mem h.reached) (h.last e' h'.mem h'.reached))

/-- A table gives one line to an offset. -/
theorem LineAt.unique {line line' : Option Nat} (h : LineAt lines offset line)
    (h' : LineAt lines offset line') : line = line' := by
  cases h with
  | entry h =>
    cases h' with
    | entry h' => rw [h.unique h']
    | none h' => exact absurd h.reached (Nat.not_le.mpr (h' _ h.mem))
  | none h =>
    cases h' with
    | entry h' => exact absurd h'.reached (Nat.not_le.mpr (h _ h'.mem))
    | none _ => rfl

/-- What a table says depends on its entries alone. -/
theorem LineAt.congr {line : Option Nat} (hlines : ∀ e, e ∈ lines ↔ e ∈ lines')
    (h : LineAt lines offset line) : LineAt lines' offset line := by
  cases h with
  | entry h =>
    exact .entry ⟨(hlines _).mp h.mem, h.reached, fun e' he' => h.last e' ((hlines e').mpr he')⟩
  | none h => exact .none fun e he => h e ((hlines e).mpr he)

/-- In a table in order, the entries at or before an offset are the first ones. -/
theorem mem_takeWhile_of_le (hsorted : lines.Pairwise (toLex · ≤ toLex ·)) {e : Nat × Nat}
    (he : e ∈ lines) (hoffset : e.1 ≤ offset) : e ∈ lines.takeWhile (·.1 ≤ offset) := by
  induction lines with
  | nil => cases he
  | cons a lines ih =>
    obtain ⟨hfirst, hrest⟩ := List.pairwise_cons.mp hsorted
    have ha : a.1 ≤ offset := by
      rcases List.mem_cons.mp he with rfl | he
      · exact hoffset
      · have := Prod.Lex.toLex_le_toLex.mp (hfirst e he)
        omega
    rw [List.takeWhile_cons_of_pos (by simpa using ha)]
    rcases List.mem_cons.mp he with rfl | he
    · exact List.mem_cons_self
    · exact List.mem_cons_of_mem _ (ih hrest he)

/-- **The last of the entries passed** in a table in order gives the line. -/
theorem lineAt_takeWhile (hsorted : lines.Pairwise (toLex · ≤ toLex ·)) (offset : Nat) :
    LineAt lines offset ((lines.takeWhile (·.1 ≤ offset)).getLast?.map (·.2)) := by
  cases hlast : (lines.takeWhile (·.1 ≤ offset)).getLast? with
  | none =>
    rw [List.getLast?_eq_none_iff] at hlast
    refine .none fun e he => Nat.lt_of_not_le fun hoffset => ?_
    have hpassed := mem_takeWhile_of_le hsorted he hoffset
    rw [hlast] at hpassed
    cases hpassed
  | some e =>
    obtain ⟨before, hpassed⟩ := List.getLast?_eq_some_iff.mp hlast
    have hmem : e ∈ lines.takeWhile (·.1 ≤ offset) := by simp [hpassed]
    have hfront : lines.takeWhile (·.1 ≤ offset) <+: lines := List.takeWhile_prefix _
    refine .entry ⟨hfront.subset hmem, by simpa using List.mem_takeWhile_imp hmem, ?_⟩
    intro e' he' hoffset
    have hsorted' := hsorted.sublist hfront.sublist
    have hpassed' := mem_takeWhile_of_le hsorted he' hoffset
    rw [hpassed] at hsorted' hpassed'
    rcases List.mem_append.mp hpassed' with hbefore | hlast
    · exact (List.pairwise_append.mp hsorted').2.2 e' hbefore e List.mem_cons_self
    · rw [List.mem_singleton.mp hlast]

end Tables

namespace Instruction.LinedBy

variable {lines lines' : List (Nat × Nat)} {i j k : Instruction}

theorem congr (hlines : ∀ e, e ∈ lines ↔ e ∈ lines') (h : i.LinedBy lines j) :
    i.LinedBy lines' j := by
  obtain ⟨line, hline, hj⟩ := h
  exact ⟨line, hline.congr hlines, hj⟩

theorem unique : i.LinedBy lines j → i.LinedBy lines k → j = k := by
  rintro ⟨line, hline, rfl⟩ ⟨line', hline', rfl⟩
  rw [hline.unique hline']

end Instruction.LinedBy

namespace Decode

/-! ## The pass over entries and instructions -/

theorem entryLE_iff {a b : Nat × Nat} : entryLE a b = true ↔ toLex a ≤ toLex b := by
  simp [entryLE, Prod.Lex.toLex_le_toLex]

/-- A table is put in order. -/
theorem sorted_mergeSort (lines : List (Nat × Nat)) :
    (lines.mergeSort entryLE).Pairwise (toLex · ≤ toLex ·) := by
  have hsorted := @List.pairwise_mergeSort _ entryLE
    (fun a b c hab hbc => by rw [entryLE_iff] at *; exact hab.trans hbc)
    (fun a b => by simpa [entryLE_iff] using le_total (toLex a) (toLex b)) lines
  exact hsorted.imp entryLE_iff.mp

/-- An instruction gets the line of the last entry passed on the way to it; the entries passed are
not looked at again. -/
theorem mergeLines_cons {current line : Option Nat} {entries passed : List (Nat × Nat)}
    {i : Instruction} (is : List Instruction)
    (hpassed : entries.takeWhile (·.1 ≤ i.offset) = passed)
    (hline : (passed.getLast?.map (·.2)).or current = line) :
    mergeLines current entries (i :: is) =
      { i with line := line.or i.line } :: mergeLines line (entries.drop passed.length) is := by
  subst hpassed hline
  rw [mergeLines]
  cases (entries.takeWhile (·.1 ≤ i.offset)).getLast? with
  | none => cases current <;> rfl
  | some e => rfl

/-- **The pass**, from any point on. No entry that was passed stands behind an instruction that is
left, and the line in force is that of the last of them. -/
theorem linedBy_mergeLines {passed entries : List (Nat × Nat)} {is : List Instruction}
    (hsorted : (passed ++ entries).Pairwise (toLex · ≤ toLex ·))
    (hoffsets : is.Pairwise (·.offset ≤ ·.offset))
    (hpassed : ∀ e ∈ passed, ∀ i ∈ is, e.1 ≤ i.offset) :
    List.Forall₂ (Instruction.LinedBy (passed ++ entries)) is
      (mergeLines (passed.getLast?.map (·.2)) entries is) := by
  induction is generalizing passed entries with
  | nil => exact .nil
  | cons i is ih =>
    obtain ⟨hnext, hrest⟩ := List.pairwise_cons.mp hoffsets
    have hhere : (passed ++ entries).takeWhile (·.1 ≤ i.offset) =
        passed ++ entries.takeWhile (·.1 ≤ i.offset) :=
      List.takeWhile_append_of_pos fun e he => by simpa using hpassed e he i List.mem_cons_self
    have hline := lineAt_takeWhile hsorted i.offset
    rw [hhere, List.getLast?_append, Option.map_or] at hline
    have hsplit : passed ++ entries = passed ++ entries.takeWhile (·.1 ≤ i.offset) ++
        entries.drop (entries.takeWhile (·.1 ≤ i.offset)).length := by
      rw [List.append_assoc, List.prefix_iff_eq_append.mp (List.takeWhile_prefix _)]
    rw [mergeLines_cons is rfl rfl]
    refine .cons ⟨_, hline, rfl⟩ ?_
    rw [← Option.map_or, ← List.getLast?_append, hsplit]
    refine ih (hsplit ▸ hsorted) hrest fun e he j hj => ?_
    rcases List.mem_append.mp he with he | he
    · exact hpassed e he j (List.mem_cons_of_mem _ hj)
    · have hreached : e.1 ≤ i.offset := by simpa using List.mem_takeWhile_imp he
      exact hreached.trans (hnext j hj)

/-- Every instruction gets the line that the table gives to its offset. -/
theorem linedBy_applyLines {is : List Instruction} (hoffsets : is.Pairwise (·.offset ≤ ·.offset))
    (lines : List (Nat × Nat)) :
    List.Forall₂ (Instruction.LinedBy lines) is (applyLines is lines) := by
  have hpass := @linedBy_mergeLines [] _ _ (sorted_mergeSort lines) hoffsets (by simp)
  refine hpass.imp ?_
  rintro i j ⟨line, hline, hj⟩
  exact ⟨line, hline.congr fun e => List.mem_mergeSort, hj⟩

/-- Instructions without lines have those of the table then. -/
theorem lineAt_applyLines {is : List Instruction} (hoffsets : is.Pairwise (·.offset ≤ ·.offset))
    (hunlined : ∀ i ∈ is, i.line = none) (lines : List (Nat × Nat)) :
    ∀ j ∈ applyLines is lines, LineAt lines j.offset j.line := by
  intro j hj
  obtain ⟨i, hi, line, hline, rfl⟩ :=
    Outcome.exists_of_mem_right (linedBy_applyLines hoffsets lines) hj
  simpa [hunlined i hi] using hline

/-- **The arrangement of a table** does not matter, nor do repeated entries. -/
theorem applyLines_congr {is : List Instruction} (hoffsets : is.Pairwise (·.offset ≤ ·.offset))
    {lines lines' : List (Nat × Nat)} (hlines : ∀ e, e ∈ lines ↔ e ∈ lines') :
    applyLines is lines = applyLines is lines' := by
  have hsame := (linedBy_applyLines hoffsets lines).imp fun i j h => h.congr hlines
  exact List.right_unique_forall₂' (fun _ _ _ h h' => h.unique h') hsame
    (linedBy_applyLines hoffsets lines')

/-- **Lines.** If instructions stand in the order of their offsets, every one of them gets the line
that the table gives to its offset, and nothing else of it is changed. If they had no lines before,
those are all the lines there are. -/
theorem applyLines_exact {is : List Instruction} (hoffsets : is.Pairwise (·.offset ≤ ·.offset))
    (lines : List (Nat × Nat)) :
    List.Forall₂ (Instruction.LinedBy lines) is (applyLines is lines) ∧
    ((∀ i ∈ is, i.line = none) → ∀ j ∈ applyLines is lines, LineAt lines j.offset j.line) :=
  ⟨linedBy_applyLines hoffsets lines, fun hunlined => lineAt_applyLines hoffsets hunlined lines⟩

/-- Instructions of one byte at some offsets. -/
def instructionsAt (offsets : List Nat) : List Instruction :=
  offsets.map fun offset =>
    { offset, opcode := 0, mnemonic := "NOP", operands := [], kinds := [], size := 1, stackDelta := 0
      transfer := .next }

/-- A table out of order that has two entries for each of two offsets, and one of them twice. The
first instruction stands before all entries, the third behind two of them at once. -/
theorem applyLines_exact_shuffled :
    let is := instructionsAt [0, 2, 7, 9]
    let lines := [(7, 9), (2, 5), (7, 3), (2, 6), (4, 8), (7, 9)]
    is.Pairwise (·.offset ≤ ·.offset) ∧ (∀ i ∈ is, i.line = none) ∧
      List.Forall₂ (Instruction.LinedBy lines) is (applyLines is lines) ∧
      (∀ j ∈ applyLines is lines, LineAt lines j.offset j.line) ∧
      (applyLines is lines).map (·.line) = [none, some 6, some 9, some 9] := by
  intro is lines
  have hoffsets : is.Pairwise (·.offset ≤ ·.offset) := by decide
  have hunlined : ∀ i ∈ is, i.line = none := by decide
  have hsorted : lines.mergeSort entryLE = [(2, 5), (2, 6), (4, 8), (7, 3), (7, 9), (7, 9)] := by
    simp [lines, List.mergeSort, entryLE]
  obtain ⟨hlined, hlines⟩ := applyLines_exact hoffsets lines
  refine ⟨hoffsets, hunlined, hlined, hlines hunlined, ?_⟩
  rw [applyLines, hsorted]
  rfl

end Decode

/-! ## Decoded functions -/

theorem Tiles.pairwise_offset {n m : Nat} {is : List Instruction} (h : Tiles n is m) :
    is.Pairwise (·.offset ≤ ·.offset) := by
  induction h with
  | nil => exact .nil
  | cons hoff hsize h ih =>
    refine .cons (fun j hj => ?_) ih
    have := h.le_offset j hj
    omega

/-- A function that was decoded to its end has the lines of its table. -/
theorem Function.Occupies.lineAt {d : Dialect} {functionCount index o : Nat} {f : Function}
    {head code table : List UInt8} (h : f.Occupies d functionCount index o head code table) :
    ∀ i ∈ f.instructions, LineAt f.lines i.offset i.line := by
  obtain ⟨ps, hstream, hlines⟩ := h.read
  rw [hlines]
  refine Decode.lineAt_applyLines (hstream.tiles (Nat.le_refl _)).pairwise_offset ?_ f.lines
  intro i hi
  obtain ⟨p, hp, rfl⟩ := List.mem_map.mp hi
  obtain ⟨c, o', -, hread⟩ := hstream.exists_readFrom p hp
  exact hread.line

/-- **The lines of a unit.** In every function that was decoded to its end, whatever stopped the
unit, the instructions have the lines that the function's table gives to their offsets. -/
theorem Script.lineAt_of_mem {d : Dialect} (hd : d.Registered) {payload : List UInt8} {f : Function}
    (hf : f ∈ (decode d payload).functions) (hcomplete : f.complete) :
    ∀ i ∈ f.instructions, LineAt f.lines i.offset i.line := by
  obtain ⟨functionCount, index, c, c', hc, hrun⟩ := exists_read_of_mem hd.regular hf
  obtain ⟨head, code, table, -, hoccupies⟩ :=
    Decode.exists_occupies hd.regular hc hrun (Option.isNone_iff_eq_none.mp hcomplete)
  exact hoccupies.lineAt

end Unscript
