import Unscript.Proofs.Script.Isolation
import Mathlib.Data.List.TakeWhile

/-!
# Decoding the beginning of a payload

When at most a part of the code of each function and at most some functions are asked for, a payload
that is decoded to its end gives the same functions, each with those of its instructions that start
within the part. The exception are lines: a table with a line behind the part is not read, and its
function and all behind it are missing.

* `Function.LinedWithin`: functions whose lines start within the part.
* `Function.upToOffset`: what is decoded of a function.

Results:
* `Decode.Stream.instructions_within`, `Decode.Stream.code_within`: the instructions that start
  within the part are read.
* `Function.Occupies.function_within`, `Function.Occupies.function_beyond`: a function.
* `Script.decode_bounded`: the payload.
-/

namespace Unscript

namespace Function

/-- Whether the lines of a function start within so many bytes of its code. -/
def LinedWithin (limit : Nat) (f : Function) : Prop :=
  ∀ e ∈ f.lines, e.1 < limit

instance (limit : Nat) (f : Function) : Decidable (f.LinedWithin limit) :=
  inferInstanceAs (Decidable (∀ e ∈ f.lines, e.1 < limit))

/-- The function with those of its instructions that start within so many bytes of its code. -/
def upToOffset (limit : Nat) (f : Function) : Function :=
  { f with instructions := f.instructions.takeWhile (·.offset < limit) }

end Function

/-- Of instructions that follow each other, those before an offset are the first. -/
theorem Tiles.mem_takeWhile {n m limit : Nat} {is : List Instruction} (h : Tiles n is m) :
    ∀ i ∈ is, i.offset < limit → i ∈ is.takeWhile (·.offset < limit) := by
  induction h with
  | nil => exact fun _ hi => absurd hi List.not_mem_nil
  | @cons n m i is hoff hsize h ih =>
    intro j hj hlt
    rcases List.mem_cons.mp hj with rfl | hj
    · rw [List.takeWhile_cons_of_pos (by simpa using hlt)]
      exact List.mem_cons_self
    · have := h.le_offset j hj
      rw [List.takeWhile_cons_of_pos (by simp only [decide_eq_true_eq]; omega)]
      exact List.mem_cons_of_mem _ (ih j hj hlt)

namespace Decode

variable {d : Dialect} {locals start codeEnd o limit : Nat} {pool : List Constant}

/-! ## Lines -/

/-- The lines of the first instructions do not depend on the others. -/
theorem mergeLines_takeWhile (current : Option Nat) (entries : List (Nat × Nat))
    (is : List Instruction) :
    mergeLines current entries (is.takeWhile (·.offset < limit)) =
      (mergeLines current entries is).takeWhile (·.offset < limit) := by
  induction is generalizing current entries with
  | nil => rfl
  | cons i is ih =>
    by_cases hlt : i.offset < limit
    · rw [List.takeWhile_cons_of_pos (by simpa using hlt)]
      unfold mergeLines
      dsimp only
      rw [List.takeWhile_cons_of_pos, ih]
      split <;> simpa using hlt
    · rw [List.takeWhile_cons_of_neg (by simpa using hlt)]
      unfold mergeLines
      dsimp only
      rw [List.takeWhile_cons_of_neg]
      split <;> simpa using hlt

theorem applyLines_takeWhile (is : List Instruction) (lines : List (Nat × Nat)) :
    applyLines (is.takeWhile (·.offset < limit)) lines =
      (applyLines is lines).takeWhile (·.offset < limit) :=
  mergeLines_takeWhile none _ is

/-! ## Code -/

namespace Stream

variable {cs : List Command} {ps : List Placed} {bs : List UInt8}

/-- **The beginning of a stream** is read: the instructions that start within it. -/
theorem instructions_within {c c' : Cursor} {fuel : Nat}
    (h : Stream d locals pool start codeEnd o cs ps bs) (limit : Nat) (done : List Placed) (hc : c.Valid)
    (ho : c.offset = o) (hstart : start ≤ o) (hthrough : c.Through bs c')
    (hend : c'.offset = codeEnd) (hfuel : c.rest.length < fuel) :
    instructions d locals pool start codeEnd (min codeEnd (start + limit)) fuel done c =
      .ok (done.reverse ++ ps.takeWhile (·.1.offset < limit)) := by
  induction h generalizing c fuel done with
  | nil =>
    obtain ⟨fuel, rfl⟩ : ∃ n, fuel = n + 1 := ⟨fuel - 1, by omega⟩
    have hoff : c'.offset = c.offset := hthrough.offset
    unfold instructions
    rw [if_pos (by omega), List.takeWhile_nil, List.append_nil]
  | @cons o c₀ cs p ps bs bs' _ _ hframes hread _ ih =>
    obtain ⟨fuel, rfl⟩ : ∃ n, fuel = n + 1 := ⟨fuel - 1, by omega⟩
    obtain ⟨c₁, h₁, h₂⟩ := hthrough.split
    have hsize : c₀.size d = bs.length := hframes.sum
    have hpos := c₀.size_pos d
    have hoff := hthrough.offset
    have hrest := congrArg List.length h₁.rest
    rw [List.length_append] at hoff hrest
    have hplace := hread.offset
    unfold instructions
    by_cases hlt : p.1.offset < limit
    · rw [if_neg (by omega), hframes.whole hc ho h₁, List.takeWhile_cons_of_pos (by simpa using hlt)]
      dsimp only
      rw [ih (p :: done) (h₁.valid hc) (by rw [h₁.offset, ho]) (by omega) h₂ (by omega),
        List.reverse_cons, List.append_assoc, List.singleton_append]
    · rw [if_pos (by omega), List.takeWhile_cons_of_neg (by simpa using hlt), List.append_nil]

/-- **The beginning of a code** whose jumps are all in order is decoded. -/
theorem code_within {c c' : Cursor} (hc : c.Valid)
    (h : Stream d locals pool c.offset (c.offset + bs.length) c.offset cs ps bs)
    (hthrough : c.Through bs c')
    (hstray : strayJump? (bs.length :: Command.starts d 0 cs) ps = none) (limit : Nat)
    (count : Option Nat) :
    code d locals pool ⟨some limit, count⟩ c bs.length =
      .ok ((ps.map (·.1)).takeWhile (·.offset < limit)) := by
  have hrun := h.instructions_within limit [] hc rfl (Nat.le_refl _) hthrough
    hthrough.offset (Nat.lt_succ_self _)
  rw [List.reverse_nil, List.nil_append] at hrun
  have hmap : (ps.map (·.1)).takeWhile (·.offset < limit) =
      (ps.takeWhile (·.1.offset < limit)).map (·.1) := List.takeWhile_map ..
  unfold code
  dsimp only
  rw [hrun, hmap]
  dsimp only
  by_cases hcut : min (c.offset + bs.length) (c.offset + limit) < c.offset + bs.length
  · rw [if_pos (by simpa using hcut)]
  · -- All of the code is asked for, so its jumps are checked.
    have htiles := h.tiles (Nat.le_refl _)
    rw [Nat.sub_self, Nat.zero_add] at htiles
    have hwhole : ps.takeWhile (·.1.offset < limit) = ps := by
      refine List.takeWhile_eq_self_iff.mpr fun p hp => ?_
      have := htiles.offset_lt p.1 (List.mem_map_of_mem hp)
      simp only [decide_eq_true_eq]
      omega
    have hoffsets := h.map_offset (Nat.le_refl _)
    rw [Nat.sub_self] at hoffsets
    rw [if_neg (by simpa using hcut), hwhole, hoffsets, hstray]

end Stream

/-! ## Functions -/

/-- Behind a code that is decoded it is the line table that decides. -/
theorem runFrom_body_of_code {bounds : Bounds} {h : Header} {length : Nat} {c : Cursor}
    {is : List Instruction} (hcode : code d h.locals pool bounds c length = .ok is)
    (hlen : length ≤ c.rest.length) :
    (body d bounds h pool length).runFrom c =
      if d.lineWidth = 0 then (.ok ⟨h, pool, is, c.offset, length, [], none⟩, c.advance length)
      else match (lineTable d (some (is.map (·.offset)))).runFrom (c.advance length) with
        | (.ok lines, c') => (.ok ⟨h, pool, applyLines is lines, c.offset, length, lines, none⟩, c')
        | (.error e, c') => (.error e, c') := by
  have hget : (get : Reading Cursor).runFrom c = (.ok c, c) := rfl
  have hset : (set (c.advance length) : Reading PUnit).runFrom c = (.ok ⟨⟩, c.advance length) := rfl
  unfold body
  rw [Reading.runFrom_bind, hget]
  dsimp only
  rw [hcode]
  dsimp only
  rw [if_neg (Nat.not_lt.mpr hlen)]
  split
  · rfl
  · rw [Reading.runFrom_bind, hset]
    dsimp only
    rw [Reading.runFrom_bind, if_pos (show (none : Option DecodeError).isNone = true from rfl)]
    generalize (lineTable d _).runFrom (c.advance length) = r
    rcases r with ⟨_ | lines, c'⟩ <;> rfl

end Decode

namespace Function.Occupies

open Decode

variable {d : Dialect} {functionCount index o limit : Nat} {count : Option Nat} {f : Function}
  {head code table : List UInt8}

/-- The instructions at the beginning of a function's code, and the offsets where its lines may
start. -/
theorem code_within (h : f.Occupies d functionCount index o head code table) (limit : Nat)
    (count : Option Nat) {c c' : Cursor} (hc : c.Valid) (ho : c.offset = f.codeOffset) (hthrough : c.Through code c') :
    ∃ is, Decode.code d f.header.locals f.constants ⟨some limit, count⟩ c f.codeLength = .ok is ∧
      applyLines is f.lines = (f.upToOffset limit).instructions ∧
      ∀ e ∈ f.lines, e.1 ∈ is.map (·.offset) ↔ e.1 < limit := by
  obtain ⟨ps, hstream, hlines⟩ := h.read
  have hland := h.legible.jumps
  rw [lands_eq, ← hstream.land_iff, ← strayJump?_eq_none_iff] at hland
  rw [← ho, ← h.length] at hstream
  have hcode := hstream.code_within hc hthrough hland limit count
  have hoffsets := hstream.map_offset (Nat.le_refl _)
  have htiles := hstream.tiles (Nat.le_refl _)
  rw [h.length] at hcode
  rw [Nat.sub_self] at hoffsets htiles
  refine ⟨_, hcode, ?_, fun e he => ⟨fun hmem => ?_, fun hlt => ?_⟩⟩
  · rw [applyLines_takeWhile, ← hlines]
    rfl
  · obtain ⟨i, hi, hoff⟩ := List.mem_map.mp hmem
    simpa [hoff] using List.mem_takeWhile_imp hi
  · have hmem := h.known e he
    rw [← hoffsets] at hmem
    obtain ⟨i, hi, hoff⟩ := List.mem_map.mp hmem
    exact List.mem_map.mpr ⟨i, htiles.mem_takeWhile i hi (by rw [hoff]; exact hlt), hoff⟩

/-- Once the head is read, it is the line table that decides. -/
theorem runFrom_function_within (h : f.Occupies d functionCount index o head code table)
    {c c₁ c₂ : Cursor} (hc : c.Valid) (ho : c.offset = o) (hhead : c.Through head c₁)
    (hcode : c₁.Through code c₂) {is : List Instruction}
    (hread : Decode.code d f.header.locals f.constants ⟨some limit, count⟩ c₁ f.codeLength = .ok is) :
    (function d ⟨some limit, count⟩ functionCount index).runFrom c =
      if d.lineWidth = 0 then
        (.ok ⟨f.header, f.constants, is, f.codeOffset, f.codeLength, [], none⟩, c₂)
      else match (lineTable d (some (is.map (·.offset)))).runFrom c₂ with
        | (.ok lines, c') => (.ok ⟨f.header, f.constants, applyLines is lines, f.codeOffset,
            f.codeLength, lines, none⟩, c')
        | (.error e, c') => (.error e, c') := by
  have hlength := congrArg List.length hcode.rest
  have hnext := hcode.eq_advance
  have hplace : c₁.offset = f.codeOffset := by rw [hhead.offset, ho, h.place]
  rw [List.length_append, h.length] at hlength
  rw [h.length] at hnext
  rw [function_eq, Reading.runFrom_bind, h.framed.whole hc ho hhead]
  dsimp only
  rw [runFrom_body_of_code hread (by omega), ← hnext, hplace]

/-- **The beginning of a function** whose lines start within the part is decoded. -/
theorem function_within (h : f.Occupies d functionCount index o head code table)
    (hlines : f.LinedWithin limit) {c c' : Cursor} (hc : c.Valid) (ho : c.offset = o)
    (hthrough : c.Through (head ++ code ++ table) c') :
    (function d ⟨some limit, count⟩ functionCount index).runFrom c =
      (.ok (f.upToOffset limit), c') := by
  obtain ⟨c₂, hthrough, htable⟩ := hthrough.split
  obtain ⟨c₁, hhead, hcode⟩ := hthrough.split
  have hc₁ := hhead.valid hc
  have hplace : c₁.offset = f.codeOffset := by rw [hhead.offset, ho, h.place]
  obtain ⟨is, hread, happlied, hknown⟩ := h.code_within limit count hc₁ hplace hcode
  have hwhole : ∀ lines, lines = f.lines → (⟨f.header, f.constants, applyLines is lines,
      f.codeOffset, f.codeLength, lines, none⟩ : Function) = f.upToOffset limit := by
    rintro _ rfl
    rw [happlied, ← h.complete]
    rfl
  rw [h.runFrom_function_within hc ho hhead hcode hread]
  split
  · rename_i hline
    rw [h.table_eq_nil hline] at htable
    rw [← hwhole [] (h.unlined hline).symm, applyLines_nil, Cursor.Through.eq (.refl c₂) htable]
  · rename_i hline
    have hat : ∀ known ∈ some (is.map (·.offset)), ∀ e ∈ f.lines, e.1 ∈ known := by
      rintro _ ⟨rfl⟩ e he
      exact (hknown e he).mpr (hlines e he)
    have hframes := lineTable_frames (o := c₂.offset) hline hat h.written
    rw [hframes.whole (hcode.valid hc₁) rfl htable]
    dsimp only
    rw [hwhole _ rfl]

/-- A function with a line behind the part is not decoded. -/
theorem function_beyond (h : f.Occupies d functionCount index o head code table)
    (hlines : ¬ f.LinedWithin limit) (count : Option Nat) {c c' : Cursor} (hc : c.Valid) (ho : c.offset = o)
    (hthrough : c.Through (head ++ code ++ table) c') :
    ∃ e c'', (function d ⟨some limit, count⟩ functionCount index).runFrom c = (.error e, c'') := by
  obtain ⟨c₂, hthrough, htable⟩ := hthrough.split
  obtain ⟨c₁, hhead, hcode⟩ := hthrough.split
  have hc₁ := hhead.valid hc
  have hplace : c₁.offset = f.codeOffset := by rw [hhead.offset, ho, h.place]
  obtain ⟨is, hread, -, hknown⟩ := h.code_within limit count hc₁ hplace hcode
  unfold Function.LinedWithin at hlines
  push Not at hlines
  obtain ⟨e, he, hbehind⟩ := hlines
  have hline : d.lineWidth ≠ 0 := by
    intro hline
    rw [h.unlined hline] at he
    cases he
  obtain ⟨e', c'', hrun⟩ := lineTable_unknown hline (hcode.valid hc₁) htable h.written
    ⟨e, he, mt (hknown e he).mp (Nat.not_lt.mpr hbehind)⟩
  rw [h.runFrom_function_within hc ho hhead hcode hread, if_neg hline, hrun]
  exact ⟨e', c'', rfl⟩

end Function.Occupies

/-! ## Payloads -/

/-- What is decoded of the first functions: those before the first one with a line behind the
part. -/
def Function.begun (limit : Nat) (fs : List Function) : List Function :=
  (fs.takeWhile fun f => f.LinedWithin limit).map (·.upToOffset limit)

namespace Decode

variable {d : Dialect} {functionCount index o limit : Nat}

/-- **The first functions of a row** are decoded up to one with a line behind the part. -/
theorem Row.functions_within {fs : List Function} {bs : List UInt8}
    (h : Row d functionCount index o fs bs) (limit : Nat) (count : Option Nat) {n : Nat} (hn : n ≤ fs.length)
    {c c' : Cursor} (hc : c.Valid) (ho : c.offset = o) (hthrough : c.Through bs c') :
    ∃ fault c'', functions d ⟨some limit, count⟩ functionCount n index c =
        (Function.begun limit (fs.take n), fault, c'') ∧
      (fault = none ↔ ∀ f ∈ fs.take n, f.LinedWithin limit) := by
  induction h generalizing c n with
  | nil =>
    obtain rfl : n = 0 := Nat.le_zero.mp hn
    exact ⟨none, c, rfl, by simp⟩
  | @cons index o f fs head code table bs hf _ ih =>
    cases n with
    | zero => exact ⟨none, c, rfl, by simp⟩
    | succ n =>
      obtain ⟨c₁, h₁, h₂⟩ := hthrough.split
      unfold Function.begun
      rw [List.take_succ_cons]
      by_cases hlines : f.LinedWithin limit
      · obtain ⟨fault, c'', hrun, hfault⟩ := ih (Nat.le_of_succ_le_succ hn) (h₁.valid hc)
          (by rw [h₁.offset, ho]) h₂
        refine ⟨fault, c'', ?_, ?_⟩
        · rw [List.takeWhile_cons_of_pos (by simpa using hlines)]
          exact functions_succ (hf.function_within hlines hc ho h₁) (Or.inl hf.complete) hrun
        · rw [hfault, List.forall_mem_cons, and_iff_right hlines]
      · obtain ⟨e, c'', hrun⟩ := hf.function_beyond hlines count hc ho h₁
        refine ⟨some (.framing e), c'', ?_, ?_⟩
        · rw [List.takeWhile_cons_of_neg (by simpa using hlines), functions, hrun]
          rfl
        · simp [hlines]

end Decode

namespace Script

/-- **A bounded decoding** of a payload that is decoded to its end gives the first functions, each
with those of its instructions that start within the part, up to one with a line behind it; there is
a fault just when there is such a function. -/
theorem decode_bounded {d : Dialect} (hd : d.Regular) {payload : List UInt8}
    (h : (decode d payload).complete) (limit count : Nat) :
    ∃ fault, decode d payload ⟨some limit, some count⟩ =
        { decode d payload with
          functions := Function.begun limit ((decode d payload).functions.take count), fault } ∧
      (fault = none ↔ ∀ f ∈ (decode d payload).functions.take count, f.LinedWithin limit) := by
  obtain ⟨p, fs, head, bs, rfl, hlaid, hdecode⟩ := Decode.exists_laid hd h
  have hc := Cursor.valid_ofBytes (head ++ bs)
  obtain ⟨c₁, h₁, hrest₁⟩ := Cursor.exists_through (c := Cursor.ofBytes (head ++ bs)) rfl
  obtain ⟨c₂, h₂, -⟩ := Cursor.exists_through (hrest₁.trans (List.append_nil _).symm)
  obtain ⟨fault, c'', hrun, hfault⟩ := hlaid.row.functions_within limit (some count)
    (Nat.min_le_left fs.length count) (h₁.valid hc) (h₁.offset.trans (Nat.zero_add _)) h₂
  rw [Nat.min_comm, ← List.take_eq_take_min, hlaid.count] at hrun
  rw [Nat.min_comm, ← List.take_eq_take_min] at hfault
  rw [hdecode]
  refine ⟨fault, ?_, hfault⟩
  unfold decode
  rw [hlaid.preamble_whole hc rfl h₁]
  dsimp only
  rw [Nat.min_comm, hrun]
  simp

end Script

end Unscript
