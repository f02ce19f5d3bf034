import Unscript.Proofs.Script.Records
import Unscript.Proofs.Script.Reencoding

/-!
# The bytes of a payload

A payload that is decoded to its end is a preamble and a row of functions, each with the bytes it
occupies. This says what is decoded when the payload is cut off, and when something follows it.

* `Decode.preambleFields`: the preamble as one reading step.
* `Decode.Row`: functions one after another.
* `Decode.Laid`: a preamble and a row of functions.

Results:
* `Decode.Row.functions_eq`, `Decode.Row.functions_cut`: what is decoded of a row's bytes and of a
  part of them.
* `Decode.exists_laid`: a payload that was decoded to its end is laid out so.
* `Decode.Laid.decode_append`, `Decode.Laid.decode_take`: what is decoded of a payload that goes on,
  and of one that is cut off.
-/

namespace Unscript

open Reading (Framed Frames textSizes runFrom_bind_ok)

namespace Decode

variable {d : Dialect} {functionCount index o : Nat}

/-! ## All functions -/

/-- Functions that are decoded to their ends, the first one with a given index and at a given offset
of the payload, and their bytes. -/
inductive Row (d : Dialect) (functionCount : Nat) : Nat → Nat → List Function → List UInt8 → Prop where
  | nil (index o : Nat) : Row d functionCount index o [] []
  | cons {index o : Nat} {f : Function} {fs : List Function} {head code table bs : List UInt8}
      (hf : f.Occupies d functionCount index o head code table)
      (hrest : Row d functionCount (index + 1) (o + (head ++ code ++ table).length) fs bs) :
      Row d functionCount index o (f :: fs) (head ++ code ++ table ++ bs)

/-- A function whose code lies within the payload is followed by the others. -/
theorem functions_succ {bounds : Bounds} {n : Nat} {c c₁ c' : Cursor} {f : Function}
    {fs : List Function} {fault : Option ScriptFault}
    (hrun : (function d bounds functionCount index).runFrom c = (.ok f, c₁))
    (hf : f.error = none ∨ f.codeOffset + f.codeLength ≤ c₁.offset)
    (h : functions d bounds functionCount n (index + 1) c₁ = (fs, fault, c')) :
    functions d bounds functionCount (n + 1) index c = (f :: fs, fault, c') := by
  rw [functions, hrun]
  dsimp only
  rw [h]
  cases herror : f.error with
  | none => rfl
  | some e =>
    rcases hf with hf | hf
    · rw [hf] at herror
      cases herror
    · dsimp only
      rw [if_neg (Nat.not_lt.mpr hf)]

/-- **Functions that were decoded to their ends** make a row. -/
theorem exists_row (hd : d.Regular) {n : Nat} {c c' : Cursor} {fs : List Function} (hc : c.Valid)
    (h : functions d {} functionCount n index c = (fs, none, c')) (hall : ∀ f ∈ fs, f.error = none) :
    fs.length = n ∧ ∃ bs, c.Through bs c' ∧ Row d functionCount index c.offset fs bs := by
  induction n generalizing index c fs with
  | zero =>
    cases h
    exact ⟨rfl, [], .refl _, .nil index _⟩
  | succ n ih =>
    unfold functions at h
    split at h
    · cases h
    · rename_i f c₁ hrun
      have hf : f.error = none := by
        split at h
        · split at h <;> obtain ⟨rfl, -⟩ := Prod.mk.inj h <;> exact hall f List.mem_cons_self
        · assumption
      obtain ⟨head, code, table, hthrough, hoccupies⟩ := exists_occupies hd hc hrun hf
      rcases hrest : functions d {} functionCount n (index + 1) c₁ with ⟨fs', fault', c₂⟩
      have hsucc := functions_succ hrun (Or.inl hf) hrest
      unfold functions at hsucc
      rw [hrun] at hsucc
      cases h.symm.trans hsucc
      obtain ⟨hlen, bs, hthrough', hrow⟩ := ih (hthrough.valid hc) hrest
        fun g hg => hall g (List.mem_cons_of_mem _ hg)
      rw [hthrough.offset] at hrow
      exact ⟨congrArg _ hlen, _, hthrough.trans hthrough', .cons hoccupies hrow⟩

/-- Functions behind a cut neither end before it nor are cut. -/
theorem filter_of_lt_codeOffset (d : Dialect) {fs : List Function} {k : Nat}
    (h : ∀ f ∈ fs, k < f.codeOffset) :
    fs.filter (·.ending d ≤ k) = [] ∧ fs.filter (·.cutAt k) = [] := by
  refine ⟨List.filter_eq_nil_iff.mpr fun f hf => ?_, List.filter_eq_nil_iff.mpr fun f hf => ?_⟩
  · have := h f hf
    unfold Function.ending
    rw [decide_eq_true_eq]
    omega
  · have := h f hf
    unfold Function.cutAt
    rw [Bool.and_eq_true, decide_eq_true_eq]
    omega

namespace Row

variable {fs : List Function} {bs : List UInt8}

theorem le_codeOffset (h : Row d functionCount index o fs bs) : ∀ f ∈ fs, o ≤ f.codeOffset := by
  induction h with
  | nil => simp
  | cons hf _ ih =>
    intro g hg
    rcases List.mem_cons.mp hg with rfl | hg
    · rw [hf.place]
      exact Nat.le_add_right _ _
    · exact Nat.le_of_add_right_le (ih g hg)

theorem complete (h : Row d functionCount index o fs bs) : ∀ f ∈ fs, f.complete := by
  induction h with
  | nil => simp
  | cons hf _ ih =>
    exact List.forall_mem_cons.mpr ⟨Option.isNone_iff_eq_none.mpr hf.complete, ih⟩

/-- The fields make up the bytes. -/
theorem sum_sizes (h : Row d functionCount index o fs bs) :
    (fs.flatMap (·.sizes d)).sum = bs.length := by
  induction h with
  | nil => rfl
  | cons hf _ ih =>
    rw [List.flatMap_cons, List.sum_append, hf.sum_sizes, ih, ← List.length_append]

/-- **A row** is decoded from its bytes, and then what follows. -/
theorem functions_append (h : Row d functionCount index o fs bs) {n : Nat} {c c₁ c' : Cursor}
    {gs : List Function} {fault : Option ScriptFault} (hc : c.Valid) (ho : c.offset = o)
    (hthrough : c.Through bs c₁)
    (hrest : functions d {} functionCount n (index + fs.length) c₁ = (gs, fault, c')) :
    functions d {} functionCount (fs.length + n) index c = (fs ++ gs, fault, c') := by
  induction h generalizing c with
  | nil =>
    rw [← Cursor.Through.eq (.refl c) hthrough] at hrest
    simpa using hrest
  | @cons index o f fs head code table bs hf _ ih =>
    obtain ⟨c₂, h₁, h₂⟩ := hthrough.split
    have hsucc : functions d {} functionCount (fs.length + n) (index + 1) c₂ =
        (fs ++ gs, fault, c') := by
      refine ih (h₁.valid hc) (by rw [h₁.offset, ho]) h₂ ?_
      rw [Nat.add_right_comm]
      exact hrest
    rw [List.length_cons, Nat.add_right_comm]
    exact functions_succ (hf.whole hc ho h₁) (Or.inl hf.complete) hsucc

theorem functions_eq (h : Row d functionCount index o fs bs) {c c' : Cursor} (hc : c.Valid)
    (ho : c.offset = o) (hthrough : c.Through bs c') :
    functions d {} functionCount fs.length index c = (fs, none, c') := by
  have hnone : functions d {} functionCount 0 (index + fs.length) c' = ([], none, c') := rfl
  have happend := h.functions_append hc ho hthrough hnone
  rwa [Nat.add_zero, List.append_nil] at happend

/-- A row is cut before and behind any of its functions. -/
theorem split (h : Row d functionCount index o fs bs) {i : Nat} {f : Function} (hi : fs[i]? = some f) :
    ∃ bs₁ head code table bs₂, bs = bs₁ ++ (head ++ code ++ table ++ bs₂) ∧
      Row d functionCount index o (fs.take i) bs₁ ∧
      f.Occupies d functionCount (index + i) (o + bs₁.length) head code table ∧
      Row d functionCount (index + i + 1) (o + bs₁.length + (head ++ code ++ table).length)
        (fs.drop (i + 1)) bs₂ := by
  induction h generalizing i with
  | nil => simp at hi
  | @cons index o g fs head code table bs hg hrow ih =>
    cases i with
    | zero =>
      cases hi
      exact ⟨[], head, code, table, bs, rfl, .nil index o, hg, hrow⟩
    | succ i =>
      obtain ⟨bs₁, head', code', table', bs₂, rfl, hbefore, hf, hafter⟩ := ih hi
      have hindex : index + 1 + i = index + (i + 1) := by omega
      have hplace : o + (head ++ code ++ table).length + bs₁.length =
          o + (head ++ code ++ table ++ bs₁).length := by
        rw [Nat.add_assoc, ← List.length_append]
      rw [hindex, hplace] at hf hafter
      exact ⟨head ++ code ++ table ++ bs₁, head', code', table', bs₂, by simp, .cons hg hbefore, hf,
        hafter⟩

/-- **A row that is cut off** is decoded up to the cut: the functions that end by then, and what is
before the cut of the one into whose code it falls. -/
theorem functions_cut (h : Row d functionCount index o fs bs) {c : Cursor} {k : Nat} (hc : c.Valid)
    (ho : c.offset = o) (hk : k < bs.length) (hrest : c.rest = bs.take k) :
    ∃ fault n c', Straddles (fs.flatMap (·.sizes d)) k n ∧ fault.error.offset = o + n ∧
      functions d {} functionCount fs.length index c =
        (fs.filter (·.ending d ≤ o + k) ++
          (fs.filter (·.cutAt (o + k))).map (·.upTo (o + k) fault.error), some fault, c') := by
  induction h generalizing c k with
  | nil => exact absurd hk (Nat.not_lt_zero _)
  | @cons index o f fs head code table bs hf hrow ih =>
    have hending := hf.ending_eq
    by_cases hlt : k < (head ++ code ++ table).length
    · rw [List.take_append_of_le_length (Nat.le_of_lt hlt)] at hrest
      obtain ⟨fault, n, c', hcut, hrun, hoff⟩ := hf.cut hc ho hlt hrest
      -- The function does not end before the cut, and the others stand behind it.
      obtain ⟨hlater, hcuts⟩ := filter_of_lt_codeOffset d (k := o + k) fun g hg => by
        have := hrow.le_codeOffset g hg
        omega
      have hends : (f :: fs).filter (·.ending d ≤ o + k) = [] := by
        rw [List.filter_cons_of_neg (by rw [decide_eq_true_eq]; omega), hlater]
      rw [hends, List.filter_cons, hcuts, List.length_cons, functions, hrun]
      by_cases hin : f.cutAt (o + k) = true
      · have hinside := hoff hin
        refine ⟨.overrun ⟨fault, o + n⟩, n, c', hcut.append_right _, rfl, ?_⟩
        have hover : c'.offset < f.codeOffset + f.codeLength := by
          unfold Function.cutAt at hin
          rw [Bool.and_eq_true, decide_eq_true_eq, decide_eq_true_eq] at hin
          omega
        rw [if_pos hin, if_pos hin]
        dsimp only [Function.upTo]
        rw [if_pos hover]
        rfl
      · refine ⟨.framing ⟨fault, o + n⟩, n, c', hcut.append_right _, rfl, ?_⟩
        rw [if_neg hin, if_neg hin]
        rfl
    · obtain ⟨j, rfl⟩ : ∃ j, k = (head ++ code ++ table).length + j :=
        ⟨k - (head ++ code ++ table).length, by omega⟩
      rw [List.take_length_add_append] at hrest
      have hlen : (head ++ code ++ table ++ bs).length =
          (head ++ code ++ table).length + bs.length := List.length_append
      rw [hlen] at hk
      obtain ⟨c₁, hthrough, hrest₁⟩ := Cursor.exists_through hrest
      obtain ⟨fault, n, c', hcut, hoff, hrun⟩ := @ih c₁ j (hthrough.valid hc)
        (by rw [hthrough.offset, ho]) (by omega) hrest₁
      have hends : f.ending d ≤ o + ((head ++ code ++ table).length + j) := by omega
      have hout : f.cutAt (o + ((head ++ code ++ table).length + j)) = false := by
        unfold Function.ending at hending
        unfold Function.cutAt
        rw [Bool.and_eq_false_iff, decide_eq_false_iff_not, decide_eq_false_iff_not]
        omega
      refine ⟨fault, (head ++ code ++ table).length + n, c', ?_, by rw [hoff, Nat.add_assoc], ?_⟩
      · rw [List.flatMap_cons, ← hf.sum_sizes]
        exact hcut.append_left _
      · rw [List.length_cons, functions_succ (hf.whole hc ho hthrough) (Or.inl hf.complete) hrun,
          List.filter_cons_of_pos (by exact decide_eq_true hends),
          List.filter_cons_of_neg (by rw [hout]; exact Bool.false_ne_true), Nat.add_assoc]
        rfl

end Row

/-! ## The preamble -/

/-- The fields of a preamble. -/
def Preamble.sizes (d : Dialect) (p : Preamble) : List Nat :=
  d.operandWidth .count :: textSizes p.baseClass ++
    (if d.supports "class_name" then textSizes p.className else [])

/-- Reads a preamble. -/
def preambleFields (d : Dialect) : Reading Preamble := do
  let functionCount ← Reading.uint (d.operandWidth .count) "function count"
  let baseClass ← Reading.string "extends clause"
  let className ← if d.supports "class_name" then Reading.string "class name" else pure ""
  return ⟨functionCount, baseClass, className⟩

/-- When the preamble is broken, what was read of it is kept. -/
theorem preamble_eq (d : Dialect) (c : Cursor) :
    ∃ kept, preamble d c = match (preambleFields d).runFrom c with
      | (.ok p, c') => (p, none, c')
      | (.error e, c') => (kept, some e, c') := by
  unfold preamble preambleFields
  rw [Reading.runFrom_bind]
  rcases (Reading.uint (d.operandWidth .count) "function count").runFrom c with ⟨e | count, c₁⟩
  · exact ⟨_, rfl⟩
  dsimp only
  rw [Reading.runFrom_bind]
  rcases (Reading.string "extends clause").runFrom c₁ with ⟨e | base, c₂⟩
  · exact ⟨_, rfl⟩
  dsimp only
  by_cases hname : d.supports "class_name" = true
  · rw [if_pos hname, if_pos hname, Reading.runFrom_bind]
    rcases (Reading.string "class name").runFrom c₂ with ⟨e | name, c₃⟩
    · exact ⟨_, rfl⟩
    · exact ⟨{}, rfl⟩
  · rw [if_neg hname, if_neg hname]
    exact ⟨{}, rfl⟩

theorem preambleFields_framed (d : Dialect) :
    (preambleFields d).Framed fun p s => s = p.sizes d := by
  unfold preambleFields
  refine (Framed.uint _ _ none).bind fun count _ h₁ => (Framed.string _).bind fun base _ h₂ => ?_
  subst h₁ h₂
  dsimp only
  by_cases hname : d.supports "class_name" = true
  · rw [if_pos hname]
    refine (Framed.string _).bind fun name _ h₃ => .pure ?_
    subst h₃
    simp [Preamble.sizes, hname]
  · rw [if_neg hname]
    refine .pure ?_
    simp [Preamble.sizes, hname]

/-! ## The payload -/

/-- A preamble and functions that are decoded to their ends, with their bytes. -/
structure Laid (d : Dialect) (p : Preamble) (fs : List Function) (head bs : List UInt8) : Prop where
  framed : (preambleFields d).Frames 0 p head (p.sizes d)
  row : Row d p.functionCount 0 head.length fs bs
  count : fs.length = p.functionCount

/-- **A payload that was decoded to its end** is laid out as a preamble and functions. -/
theorem exists_laid (hd : d.Regular) {payload : List UInt8} (h : (Script.decode d payload).complete) :
    ∃ p fs head bs, payload = head ++ bs ∧ Laid d p fs head bs ∧
      Script.decode d payload = ⟨d, p.baseClass, p.className, p.functionCount, fs, none⟩ := by
  obtain ⟨p, c, fs, c', hpreamble, hfunctions, hall, hend, hdecode⟩ := Script.complete_decode h
  have hc := Cursor.valid_ofBytes payload
  obtain ⟨kept, hkept⟩ := preamble_eq d (Cursor.ofBytes payload)
  rw [hpreamble] at hkept
  split at hkept
  · rename_i p' c₁ hrun
    cases hkept
    obtain ⟨head, sizes, hthrough, hframes, rfl⟩ := preambleFields_framed d hc hrun
    have hc₁ := hthrough.valid hc
    obtain ⟨hcount, bs, hthrough', hrow⟩ := exists_row hd hc₁ hfunctions hall
    -- The cursor stands at the end, so the payload is what was read.
    have hpayload : payload = head ++ bs := by
      have hrest := (hthrough.trans hthrough').rest
      have hvalid := hthrough'.valid hc₁
      unfold Cursor.Valid at hvalid
      have hempty : c'.rest = [] := List.length_eq_zero_iff.mp (by omega)
      rw [hempty, List.append_nil] at hrest
      exact hrest
    have hoff : c.offset = head.length := by
      rw [hthrough.offset]
      exact Nat.zero_add _
    rw [hoff] at hrow
    exact ⟨p, fs, head, bs, hpayload, ⟨hframes, hrow, hcount⟩, hdecode⟩
  · cases hkept

namespace Laid

variable {p : Preamble} {fs : List Function} {head bs : List UInt8}

/-- The fields make up the payload. -/
theorem sum_sizes (h : Laid d p fs head bs) :
    (p.sizes d ++ fs.flatMap (·.sizes d)).sum = (head ++ bs).length := by
  rw [List.sum_append, h.framed.sum, h.row.sum_sizes, List.length_append]

theorem preamble_whole (h : Laid d p fs head bs) {c c' : Cursor} (hc : c.Valid) (ho : c.offset = 0)
    (hthrough : c.Through head c') : preamble d c = (p, none, c') := by
  obtain ⟨kept, hkept⟩ := preamble_eq d c
  rw [hkept, h.framed.whole hc ho hthrough]

/-- Behind the preamble it is the functions that decide. -/
theorem decode_eq (h : Laid d p fs head bs) {payload : List UInt8} {c c' : Cursor}
    {gs : List Function} {fault : Option ScriptFault}
    (hthrough : (Cursor.ofBytes payload).Through head c)
    (hrun : functions d {} p.functionCount fs.length 0 c = (gs, fault, c')) :
    Script.decode d payload = ⟨d, p.baseClass, p.className, p.functionCount, gs,
      if fault.isNone && !c'.atEnd then some (.trailing ⟨.trailing c'.remaining, c'.offset⟩)
      else fault⟩ := by
  rw [h.count] at hrun
  unfold Script.decode
  rw [h.preamble_whole (Cursor.valid_ofBytes payload) rfl hthrough]
  dsimp only
  rw [hrun]
  simp

/-- **A payload that goes on** is decoded, and what is left of it is its fault. -/
theorem decode_append (h : Laid d p fs head bs) (extra : List UInt8) :
    Script.decode d (head ++ bs ++ extra) = ⟨d, p.baseClass, p.className, p.functionCount, fs,
      if extra = [] then none
      else some (.trailing ⟨.trailing extra.length, (head ++ bs).length⟩)⟩ := by
  have hc := Cursor.valid_ofBytes (head ++ bs ++ extra)
  have hstart : (Cursor.ofBytes (head ++ bs ++ extra)).rest = head ++ bs ++ extra := rfl
  obtain ⟨c₂, hthrough, hrest⟩ := Cursor.exists_through hstart
  obtain ⟨c₁, h₁, h₂⟩ := hthrough.split
  have hvalid := hthrough.valid hc
  have hoff₁ : c₁.offset = head.length := h₁.offset.trans (Nat.zero_add _)
  have hoff₂ : c₂.offset = (head ++ bs).length := hthrough.offset.trans (Nat.zero_add _)
  unfold Cursor.Valid at hvalid
  rw [hrest] at hvalid
  have hremaining : c₂.remaining = extra.length := by
    unfold Cursor.remaining
    omega
  have hatEnd : c₂.atEnd = decide (extra = []) := by
    unfold Cursor.atEnd
    rw [decide_eq_decide, ← List.length_eq_zero_iff]
    omega
  rw [h.decode_eq h₁ (h.row.functions_eq (h₁.valid hc) hoff₁ h₂), hatEnd, hremaining, hoff₂]
  by_cases hextra : extra = [] <;> simp [hextra]

/-- **A payload that is cut off** is decoded up to the cut. -/
theorem decode_take (h : Laid d p fs head bs) {k : Nat} (hk : k < (head ++ bs).length) :
    ∃ fault, Straddles (p.sizes d ++ fs.flatMap (·.sizes d)) k fault.error.offset ∧
      (Script.decode d ((head ++ bs).take k)).fault = some fault ∧
      (Script.decode d ((head ++ bs).take k)).functions = fs.filter (·.ending d ≤ k) ++
        (fs.filter (·.cutAt k)).map (·.upTo k fault.error) := by
  have hc := Cursor.valid_ofBytes ((head ++ bs).take k)
  by_cases hlt : k < head.length
  · obtain ⟨hends, hcuts⟩ := filter_of_lt_codeOffset d (k := k) fun f hf =>
      Nat.lt_of_lt_of_le hlt (h.row.le_codeOffset f hf)
    have hrest : (Cursor.ofBytes ((head ++ bs).take k)).rest = head.take k :=
      List.take_append_of_le_length (Nat.le_of_lt hlt)
    obtain ⟨fault, n, c', hrun, hcut⟩ := h.framed.cut hc rfl hlt hrest
    obtain ⟨kept, hkept⟩ := preamble_eq d (Cursor.ofBytes ((head ++ bs).take k))
    rw [hrun, Nat.zero_add] at hkept
    refine ⟨.header ⟨fault, n⟩, hcut.append_right _, ?_⟩
    unfold Script.decode
    rw [hkept, hends, hcuts]
    exact ⟨rfl, rfl⟩
  · obtain ⟨j, rfl⟩ : ∃ j, k = head.length + j := ⟨k - head.length, by omega⟩
    rw [List.length_append] at hk
    have hrest : (Cursor.ofBytes ((head ++ bs).take (head.length + j))).rest = head ++ bs.take j :=
      List.take_length_add_append _
    obtain ⟨c₁, h₁, hrest₁⟩ := Cursor.exists_through hrest
    have hoff₁ : c₁.offset = head.length := h₁.offset.trans (Nat.zero_add _)
    obtain ⟨fault, n, c', hcut, hoff, hrun⟩ :=
      h.row.functions_cut (h₁.valid hc) hoff₁ (by omega) hrest₁
    rw [h.decode_eq h₁ hrun]
    refine ⟨fault, ?_, rfl, rfl⟩
    rw [hoff, ← h.framed.sum]
    exact hcut.append_left _

end Laid

end Decode

end Unscript
