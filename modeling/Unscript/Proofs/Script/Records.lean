import Unscript.Proofs.Script.Acceptance

/-!
# The bytes of a function

A function that is decoded to its end occupies the bytes of its head, its code and its line table.
It is decoded the same wherever these bytes stand at the same offset, and of the bytes that are left
when they are cut off it is known what is decoded.

* `Decode.functionHead`: what is read before the code of a function.
* `Decode.coded`: what is known of a function before its line table is read.
* `Function.Occupies`: a function and the bytes from which it is decoded to its end.
* `Function.upTo`: what is decoded of a function whose code is cut off.

Results:
* `Function.Occupies.whole`, `Function.Occupies.cut`: what is decoded of a function's bytes and of a
  part of them.
* `Decode.exists_occupies`: a function that was decoded to its end occupies the bytes it was read
  from.
-/

namespace Unscript

open Reading (Consumes Framed Frames runFrom_bind_ok)

/-! ## Parts of a function -/

/-- An instruction without its line. -/
def Instruction.unlined (i : Instruction) : Instruction :=
  { i with line := none }

namespace Function

/-- The offsets at which lines of a function may start, if they are known. -/
def boundaries? (f : Function) : Option (List Nat) :=
  if f.error.isNone then some (f.instructions.map (·.offset)) else none

/-- A function with its line table. -/
def lined (f : Function) (lines : List (Nat × Nat)) : Function :=
  { f with
    lines
    instructions :=
      if f.error.isNone then Decode.applyLines f.instructions lines else f.instructions }

/-- Whether the code of a function is cut off after `k` bytes of the payload. -/
def cutAt (k : Nat) (f : Function) : Bool :=
  f.codeOffset ≤ k && k < f.codeOffset + f.codeLength

/-- What is decoded of a function whose code is cut off after `k` bytes of the payload: the
instructions that end by then, without lines, and an error. -/
def upTo (k : Nat) (e : DecodeError) (f : Function) : Function :=
  { f with
    instructions :=
      (f.instructions.filter fun i => f.codeOffset + i.ending ≤ k).map (·.unlined)
    lines := []
    error := some e }

/-- The place in the payload at which a function ends. -/
def ending (d : Dialect) (f : Function) : Nat :=
  f.codeOffset + f.codeLength + (d.lineSizes f.lines).sum

end Function

namespace Decode

variable {d : Dialect} {functionCount index o : Nat}

theorem map_unlined_mergeLines {current : Option Nat} {entries : List (Nat × Nat)}
    {is : List Instruction} (h : ∀ i ∈ is, i.line = none) :
    (mergeLines current entries is).map (·.unlined) = is := by
  induction is generalizing current entries with
  | nil => rfl
  | cons i is ih =>
    unfold mergeLines
    rw [List.map_cons, ih fun j hj => h j (List.mem_cons_of_mem _ hj)]
    congr 1
    have hline := h i List.mem_cons_self
    obtain ⟨_, _, _, _, _, _, _, _, _, _⟩ := i
    cases hline
    split <;> rfl

/-- Lines are all that the line table adds. -/
theorem map_unlined_applyLines {is : List Instruction} (lines : List (Nat × Nat))
    (h : ∀ i ∈ is, i.line = none) : (applyLines is lines).map (·.unlined) = is :=
  map_unlined_mergeLines h

theorem applyLines_nil (is : List Instruction) : applyLines is [] = is := by
  unfold applyLines
  rw [List.mergeSort_nil]
  induction is with
  | nil => rfl
  | cons i is ih =>
    unfold mergeLines
    exact congrArg _ ih

/-! ## Reading a function in parts -/

/-- Reads what stands before the code of a function: the header, the pool and the length of the
code. -/
def functionHead (d : Dialect) (functionCount index : Nat) :
    Reading (Header × List Constant × Nat) := do
  let h ← header d index
  let pool ← constants d functionCount
  let length ← Reading.uint 4 "code length"
  return (h, pool, length)

theorem function_eq (bounds : Bounds) :
    function d bounds functionCount index =
      functionHead d functionCount index >>= fun (h, pool, length) => body d bounds h pool length := by
  simp only [function, functionHead, bind_assoc, pure_bind]

theorem functionHead_framed (d : Dialect) (functionCount index : Nat) :
    (functionHead d functionCount index).Framed fun p s =>
      s = p.1.sizes d ++ d.poolSizes p.2.1 ++ [4] := by
  refine (header_framed d index).bind fun h _ h₁ => (constants_framed d functionCount).bind
    fun pool _ h₂ => (Framed.uint 4 _ none).bind fun length _ h₃ => .pure ?_
  subst h₁ h₂ h₃
  simp

/-- What is known of a function when its code was read, before the line table. -/
def coded (d : Dialect) (h : Header) (pool : List Constant) (length : Nat) (c : Cursor) : Function :=
  let (found, error) := match code d h.locals pool {} c length with
    | .ok found => (found, none)
    | .error e => (e.before, some e.error)
  { header := h, constants := pool, instructions := found, codeOffset := c.offset
    codeLength := length, error }

theorem runFrom_body (h : Header) (pool : List Constant) (length : Nat) (c : Cursor) :
    (body d {} h pool length).runFrom c =
      if c.rest.length < length then (.ok (coded d h pool length c), c.advance c.rest.length)
      else if d.lineWidth = 0 then (.ok (coded d h pool length c), c.advance length)
      else match (lineTable d (coded d h pool length c).boundaries?).runFrom (c.advance length) with
        | (.ok lines, c') => (.ok ((coded d h pool length c).lined lines), c')
        | (.error e, c') => (.error e, c') := by
  have hget : (get : Reading Cursor).runFrom c = (.ok c, c) := rfl
  unfold body coded Function.boundaries? Function.lined
  rw [Reading.runFrom_bind, hget]
  dsimp only
  split
  · rfl
  · split
    · rfl
    · rename_i hline
      have hset : (set (c.advance length) : Reading PUnit).runFrom c = (.ok ⟨⟩, c.advance length) :=
        rfl
      rw [Reading.runFrom_bind, hset]
      dsimp only
      rw [Reading.runFrom_bind]
      generalize (lineTable d _).runFrom (c.advance length) = r
      rcases r with ⟨_ | lines, c'⟩ <;> rfl

theorem coded_lined_nil (h : Header) (pool : List Constant) (length : Nat) (c : Cursor) :
    (coded d h pool length c).lined [] = coded d h pool length c := by
  unfold coded Function.lined
  cases code d h.locals pool {} c length with
  | error e => rfl
  | ok is => simp [applyLines_nil]

end Decode

/-! ## A function in its place -/

/-- A function that is decoded to its end, and the bytes it is decoded from at the offset `o` of a
payload: those of its head, its code and its line table. -/
structure Function.Occupies (d : Dialect) (functionCount index o : Nat) (f : Function)
    (head code table : List UInt8) : Prop where
  framed : (Decode.functionHead d functionCount index).Frames o
    (f.header, f.constants, f.codeLength) head (f.headSizes d)
  place : f.codeOffset = o + head.length
  length : code.length = f.codeLength
  legible : Legible d f.header.locals f.constants (f.instructions.map (·.command)) code
  read : ∃ ps, Decode.Stream d f.header.locals f.constants f.codeOffset
    (f.codeOffset + f.codeLength) f.codeOffset (f.instructions.map (·.command)) ps code ∧
      f.instructions = Decode.applyLines (ps.map (·.1)) f.lines
  known : ∀ e ∈ f.lines, e.1 ∈ Command.starts d 0 (f.instructions.map (·.command))
  written : Encode.lineTable d f.lines = .ok table
  unlined : d.lineWidth = 0 → f.lines = []
  complete : f.error = none

namespace Function.Occupies

open Decode

variable {d : Dialect} {functionCount index o : Nat} {f : Function} {head code table : List UInt8}

/-- Where the code stands, it is decoded as that of the function. -/
theorem code_eq (h : f.Occupies d functionCount index o head code table) {c c' : Cursor}
    (hc : c.Valid) (ho : c.offset = f.codeOffset) (hthrough : c.Through code c') :
    ∃ is, Decode.code d f.header.locals f.constants {} c f.codeLength = .ok is ∧
      f.instructions = applyLines is f.lines ∧
      is.map (·.offset) = Command.starts d 0 (f.instructions.map (·.command)) := by
  obtain ⟨ps, hstream, hlines⟩ := h.read
  have hoffsets := hstream.map_offset (Nat.le_refl _)
  have hland := h.legible.jumps
  rw [lands_eq, ← hstream.land_iff, ← strayJump?_eq_none_iff] at hland
  rw [← ho, ← h.length] at hstream
  have hcode := hstream.code_eq hc hthrough
  rw [hland, h.length] at hcode
  rw [Nat.sub_self] at hoffsets
  exact ⟨_, hcode, hlines, hoffsets⟩

theorem coded_lined (h : f.Occupies d functionCount index o head code table) {c c' : Cursor}
    (hc : c.Valid) (ho : c.offset = f.codeOffset) (hthrough : c.Through code c') :
    (coded d f.header f.constants f.codeLength c).lined f.lines = f := by
  obtain ⟨is, hcode, hlines, -⟩ := h.code_eq hc ho hthrough
  have hcomplete := h.complete
  unfold coded
  rw [hcode, ho]
  obtain ⟨_, _, _, _, _, _, _⟩ := f
  dsimp only at hlines hcomplete
  subst hlines hcomplete
  rfl

theorem boundaries?_coded (h : f.Occupies d functionCount index o head code table)
    {c c' : Cursor} (hc : c.Valid) (ho : c.offset = f.codeOffset) (hthrough : c.Through code c') :
    (coded d f.header f.constants f.codeLength c).boundaries? =
      some (Command.starts d 0 (f.instructions.map (·.command))) := by
  obtain ⟨is, hcode, -, hoffsets⟩ := h.code_eq hc ho hthrough
  unfold coded
  rw [hcode, ← hoffsets]
  rfl

/-- A dialect without line tables writes none. -/
theorem table_eq_nil (h : f.Occupies d functionCount index o head code table)
    (hline : d.lineWidth = 0) : table = [] := by
  have htable := h.written
  unfold Encode.lineTable at htable
  rw [if_pos hline] at htable
  exact (Except.ok.inj htable).symm

/-- Once the head and as many bytes of code are read, it is the line table that decides. -/
theorem runFrom_function (h : f.Occupies d functionCount index o head code table)
    {code' : List UInt8} (hlen : code'.length = f.codeLength) {c c₁ c₂ : Cursor} (hc : c.Valid)
    (ho : c.offset = o) (hhead : c.Through head c₁) (hcode : c₁.Through code' c₂) :
    (function d {} functionCount index).runFrom c =
      if d.lineWidth = 0 then (.ok (coded d f.header f.constants f.codeLength c₁), c₂)
      else match (lineTable d (coded d f.header f.constants f.codeLength c₁).boundaries?).runFrom c₂
        with
        | (.ok lines, c') => (.ok ((coded d f.header f.constants f.codeLength c₁).lined lines), c')
        | (.error e, c') => (.error e, c') := by
  have hlength := congrArg List.length hcode.rest
  have hnext := hcode.eq_advance
  rw [List.length_append, hlen] at hlength
  rw [hlen] at hnext
  rw [function_eq, Reading.runFrom_bind, h.framed.whole hc ho hhead]
  dsimp only
  rw [runFrom_body, if_neg (by omega), ← hnext]

/-- The line table is read behind the code. -/
theorem table_frames (h : f.Occupies d functionCount index o head code table)
    (hline : d.lineWidth ≠ 0) {c c' : Cursor} (hc : c.Valid) (ho : c.offset = f.codeOffset)
    (hthrough : c.Through code c') :
    (lineTable d (coded d f.header f.constants f.codeLength c).boundaries?).Frames c'.offset f.lines
      table (d.lineSizes f.lines) := by
  refine lineTable_frames hline ?_ h.written
  rw [h.boundaries?_coded hc ho hthrough]
  rintro _ ⟨rfl⟩
  exact h.known

/-- **A function** is decoded from its bytes. -/
theorem whole (h : f.Occupies d functionCount index o head code table) {c c' : Cursor}
    (hc : c.Valid) (ho : c.offset = o) (hthrough : c.Through (head ++ code ++ table) c') :
    (function d {} functionCount index).runFrom c = (.ok f, c') := by
  obtain ⟨c₂, hthrough, htable⟩ := hthrough.split
  obtain ⟨c₁, hhead, hcode⟩ := hthrough.split
  have hc₁ := hhead.valid hc
  have hplace : c₁.offset = f.codeOffset := by rw [hhead.offset, ho, h.place]
  have hlined := h.coded_lined hc₁ hplace hcode
  rw [h.runFrom_function h.length hc ho hhead hcode]
  split
  · rename_i hline
    rw [h.unlined hline, coded_lined_nil] at hlined
    rw [h.table_eq_nil hline] at htable
    rw [hlined, Cursor.Through.eq (.refl c₂) htable]
  · rename_i hline
    rw [(h.table_frames hline hc₁ hplace hcode).whole (hcode.valid hc₁) rfl htable]
    dsimp only
    rw [hlined]

/-- The fields of a line table make up its bytes. -/
theorem sum_lineSizes (h : f.Occupies d functionCount index o head code table) :
    (d.lineSizes f.lines).sum = table.length := by
  by_cases hline : d.lineWidth = 0
  · rw [h.table_eq_nil hline, Dialect.lineSizes, if_pos hline]
    rfl
  · exact (lineTable_frames_none (o := o) hline h.written).sum

/-- The instructions without their lines are those of the stream. -/
theorem exists_stream (h : f.Occupies d functionCount index o head code table) :
    ∃ ps, Stream d f.header.locals f.constants f.codeOffset (f.codeOffset + f.codeLength)
      f.codeOffset (f.instructions.map (·.command)) ps code ∧
        f.instructions.map (·.unlined) = ps.map (·.1) := by
  obtain ⟨ps, hstream, hlines⟩ := h.read
  have hunlined : ∀ i ∈ ps.map (·.1), i.line = none := by
    intro i hi
    obtain ⟨p, hp, rfl⟩ := List.mem_map.mp hi
    obtain ⟨c, o', -, hread⟩ := hstream.exists_readFrom p hp
    exact hread.line
  refine ⟨ps, hstream, ?_⟩
  rw [hlines, map_unlined_applyLines f.lines hunlined]

theorem flatMap_sizes (h : f.Occupies d functionCount index o head code table) :
    f.instructions.flatMap (·.sizes d) =
      (f.instructions.map (·.command)).flatMap (·.sizes d) := by
  obtain ⟨ps, hstream, hunlined⟩ := h.exists_stream
  rw [← hstream.flatMap_sizes, ← hunlined, List.flatMap_map]
  rfl

/-- The fields make up the bytes. -/
theorem sum_sizes (h : f.Occupies d functionCount index o head code table) :
    (f.sizes d).sum = (head ++ code ++ table).length := by
  obtain ⟨ps, hstream, -⟩ := h.exists_stream
  unfold Function.sizes
  rw [List.sum_append, List.sum_append, h.framed.sum, h.flatMap_sizes, hstream.sum_sizes,
    h.sum_lineSizes, List.length_append, List.length_append]

theorem ending_eq (h : f.Occupies d functionCount index o head code table) :
    f.ending d = o + (head ++ code ++ table).length := by
  have hlength := h.length
  have hplace := h.place
  unfold Function.ending
  rw [h.sum_lineSizes, List.length_append, List.length_append]
  omega

/-- Code that is cut off is decoded up to the last instruction before the cut. -/
theorem coded_cut (h : f.Occupies d functionCount index o head code table) {c : Cursor} {k : Nat}
    (hc : c.Valid) (ho : c.offset = f.codeOffset) (hk : k < code.length)
    (hrest : c.rest = code.take k) :
    ∃ fault n, Straddles (f.instructions.flatMap (·.sizes d)) k n ∧
      coded d f.header f.constants f.codeLength c =
        f.upTo (f.codeOffset + k) ⟨fault, f.codeOffset + n⟩ := by
  obtain ⟨ps, hstream, hunlined⟩ := h.exists_stream
  have hlength := h.length
  obtain ⟨fault, n, hcut, hrun⟩ := hstream.instructions_cut (f.codeOffset + f.codeLength) []
    hc ho hk hrest (by omega) (Nat.lt_succ_self _)
  rw [List.reverse_nil, List.nil_append] at hrun
  -- Lines do not matter for what ends before the cut.
  have hkept : (ps.filter fun p => p.1.position + p.1.size ≤ f.codeOffset + k).map (·.1) =
      (f.instructions.filter fun i => f.codeOffset + i.ending ≤ f.codeOffset + k).map
        (·.unlined) := by
    have hplaces : ∀ p ∈ ps, decide (p.1.position + p.1.size ≤ f.codeOffset + k) =
        decide (f.codeOffset + p.1.ending ≤ f.codeOffset + k) := by
      intro p hp
      obtain ⟨c, o', hle, hread⟩ := hstream.exists_readFrom p hp
      have hoff := hread.offset
      have hpos := hread.position
      unfold Instruction.ending
      congr 1
      apply propext
      omega
    calc (ps.filter fun p => p.1.position + p.1.size ≤ f.codeOffset + k).map (·.1)
        = (ps.map (·.1)).filter fun i => f.codeOffset + i.ending ≤ f.codeOffset + k := by
          rw [List.filter_congr hplaces, List.filter_map]
          rfl
      _ = (f.instructions.map (·.unlined)).filter
            fun i => f.codeOffset + i.ending ≤ f.codeOffset + k := by rw [hunlined]
      _ = _ := by
          rw [List.filter_map]
          rfl
  refine ⟨fault, n, h.flatMap_sizes ▸ hcut, ?_⟩
  unfold coded Function.upTo
  rw [← hkept]
  rw [← ho] at hrun ⊢
  rw [code_of_instructions_error hrun]

/-- A function that is cut off before its code. -/
theorem cut_head (h : f.Occupies d functionCount index o head code table) {c : Cursor} {k : Nat}
    (hc : c.Valid) (ho : c.offset = o) (hk : k < head.length) (hrest : c.rest = head.take k) :
    ∃ fault n c', Straddles (f.sizes d) k n ∧
      (function d {} functionCount index).runFrom c = (.error ⟨fault, o + n⟩, c') := by
  obtain ⟨fault, n, c', hrun, hcut⟩ := h.framed.cut hc ho hk hrest
  refine ⟨fault, n, c', (hcut.append_right _).append_right _, ?_⟩
  rw [function_eq, Reading.runFrom_bind, hrun]

/-- A function that is cut off in its code is kept up to the cut. -/
theorem cut_code (h : f.Occupies d functionCount index o head code table) {c : Cursor} {k : Nat}
    (hc : c.Valid) (ho : c.offset = o) (hk : k < code.length) (hrest : c.rest = head ++ code.take k) :
    ∃ fault n c', Straddles (f.sizes d) (head.length + k) n ∧
      (function d {} functionCount index).runFrom c =
        (.ok (f.upTo (o + (head.length + k)) ⟨fault, o + n⟩), c') ∧
      c'.offset = o + (head.length + k) := by
  obtain ⟨c₁, hthrough, hrest₁⟩ := Cursor.exists_through hrest
  have hplace : c₁.offset = f.codeOffset := by rw [hthrough.offset, ho, h.place]
  obtain ⟨fault, n, hcut, hcoded⟩ := h.coded_cut (hthrough.valid hc) hplace hk hrest₁
  have hlength := h.length
  have hleft : c₁.rest.length = k := by rw [hrest₁, List.length_take, Nat.min_eq_left (by omega)]
  refine ⟨fault, head.length + n, c₁.advance k, ?_, ?_, ?_⟩
  · rw [← h.framed.sum]
    exact (hcut.append_left _).append_right _
  · rw [function_eq, Reading.runFrom_bind, h.framed.whole hc ho hthrough]
    dsimp only
    rw [runFrom_body, if_pos (by omega), hcoded, hleft, h.place, Nat.add_assoc, Nat.add_assoc]
  · show c₁.offset + k = _
    rw [hplace, h.place, Nat.add_assoc]

/-- A function that is cut off in its line table. -/
theorem cut_table (h : f.Occupies d functionCount index o head code table) {c : Cursor} {k : Nat}
    (hc : c.Valid) (ho : c.offset = o) (hk : k < table.length)
    (hrest : c.rest = head ++ code ++ table.take k) :
    ∃ fault n c', Straddles (f.sizes d) ((head ++ code).length + k) n ∧
      (function d {} functionCount index).runFrom c = (.error ⟨fault, o + n⟩, c') := by
  have hline : d.lineWidth ≠ 0 := by
    intro hline
    rw [h.table_eq_nil hline] at hk
    exact absurd hk (Nat.not_lt_zero _)
  obtain ⟨c₂, hthrough, hrest₂⟩ := Cursor.exists_through hrest
  obtain ⟨c₁, hhead, hcode⟩ := hthrough.split
  have hc₁ := hhead.valid hc
  have hplace : c₁.offset = f.codeOffset := by rw [hhead.offset, ho, h.place]
  obtain ⟨fault, n, c', hrun, hcut⟩ :=
    (h.table_frames hline hc₁ hplace hcode).cut (hcode.valid hc₁) rfl hk hrest₂
  obtain ⟨ps, hstream, -⟩ := h.exists_stream
  have hsum : (f.headSizes d ++ f.instructions.flatMap (·.sizes d)).sum = (head ++ code).length := by
    rw [List.sum_append, h.framed.sum, h.flatMap_sizes, hstream.sum_sizes, List.length_append]
  refine ⟨fault, (head ++ code).length + n, c', ?_, ?_⟩
  · rw [← hsum]
    exact hcut.append_left _
  · rw [h.runFrom_function h.length hc ho hhead hcode, if_neg hline, hrun, hthrough.offset, ho,
      Nat.add_assoc]

/-- **A function that is cut off** fails at the field with the cut. If the cut falls into the code,
the function is kept up to it. -/
theorem cut (h : f.Occupies d functionCount index o head code table) {c : Cursor} {k : Nat}
    (hc : c.Valid) (ho : c.offset = o) (hk : k < (head ++ code ++ table).length)
    (hrest : c.rest = (head ++ code ++ table).take k) :
    ∃ fault n c', Straddles (f.sizes d) k n ∧
      (function d {} functionCount index).runFrom c =
        (if f.cutAt (o + k) then .ok (f.upTo (o + k) ⟨fault, o + n⟩) else .error ⟨fault, o + n⟩,
          c') ∧
      (f.cutAt (o + k) → c'.offset = o + k) := by
  have hlength := h.length
  have hplace := h.place
  have hinside : f.cutAt (o + k) = true ↔ head.length ≤ k ∧ k < head.length + code.length := by
    unfold Function.cutAt
    rw [Bool.and_eq_true, decide_eq_true_eq, decide_eq_true_eq]
    omega
  rw [List.length_append, List.length_append] at hk
  by_cases hhead : k < head.length
  · rw [List.append_assoc, List.take_append_of_le_length (Nat.le_of_lt hhead)] at hrest
    obtain ⟨fault, n, c', hcut, hrun⟩ := h.cut_head hc ho hhead hrest
    have hout := mt hinside.mp (by omega)
    exact ⟨fault, n, c', hcut, by rw [if_neg hout, hrun], fun h => absurd h hout⟩
  obtain ⟨j, rfl⟩ : ∃ j, k = head.length + j := ⟨k - head.length, by omega⟩
  by_cases hcode : j < code.length
  · rw [List.append_assoc, List.take_length_add_append,
      List.take_append_of_le_length (Nat.le_of_lt hcode)] at hrest
    obtain ⟨fault, n, c', hcut, hrun, hoff⟩ := h.cut_code hc ho hcode hrest
    refine ⟨fault, n, c', hcut, ?_, fun _ => hoff⟩
    rw [if_pos (hinside.mpr ⟨by omega, by omega⟩), hrun]
  · obtain ⟨i, rfl⟩ : ∃ i, j = code.length + i := ⟨j - code.length, by omega⟩
    rw [← Nat.add_assoc, ← List.length_append, List.take_length_add_append] at hrest
    obtain ⟨fault, n, c', hcut, hrun⟩ := h.cut_table hc ho (by omega) hrest
    rw [List.length_append, Nat.add_assoc] at hcut
    have hout := mt hinside.mp (by omega)
    exact ⟨fault, n, c', hcut, by rw [if_neg hout, hrun], fun h => absurd h hout⟩

end Function.Occupies

namespace Decode

variable {d : Dialect} {functionCount index o : Nat}

/-! ## Functions that were decoded -/

theorem lineEntry_known (d : Dialect) (known : List Nat) :
    Consumes (lineEntry d (some known)) fun e _ => e.1 ∈ known := by
  intro c c' e hc h
  obtain ⟨bs, hthrough, -⟩ := lineEntry_consumes d (some known) hc h
  obtain ⟨_, _, hoff, h⟩ := runFrom_bind_ok h
  cases hoff
  obtain ⟨offset, c₁, -, h⟩ := runFrom_bind_ok h
  obtain ⟨line, c₂, -, h⟩ := runFrom_bind_ok h
  dsimp only at h
  split at h
  · rename_i hknown
    cases h
    exact ⟨bs, hthrough, List.contains_iff_mem.mp hknown⟩
  · cases h

/-- The entries of a line table that was read are at known boundaries. -/
theorem lineTable_known {known : List Nat} {c c' : Cursor} {lines : List (Nat × Nat)} (hc : c.Valid)
    (h : (lineTable d (some known)).runFrom c = (.ok lines, c')) : ∀ e ∈ lines, e.1 ∈ known := by
  obtain ⟨n, c₁, hn, h⟩ := runFrom_bind_ok h
  obtain ⟨count, hthrough, -⟩ := Reading.uint_consumes _ _ hc hn
  obtain ⟨bs, -, -, parts, hparts, -⟩ :=
    times_consumes (lineEntry_known d known) n (hthrough.valid hc) h
  exact ((List.forall₂_and_left lines parts).mp (hparts.imp fun _ _ he => ⟨he, he⟩)).1

/-- Lines do not matter for what an instruction is written as. -/
theorem map_command_relined {is js : List Instruction} (h : List.Forall₂ Instruction.Relined is js) :
    js.map (·.command) = is.map (·.command) := by
  induction h with
  | nil => rfl
  | cons hij _ ih =>
    unfold Instruction.Relined at hij
    rw [List.map_cons, List.map_cons, ih, hij]
    rfl

/-- What is read of code that lies within the bytes and of the line table after it. -/
theorem body_ok {hdr : Header} {pool : List Constant} {length : Nat} {c c' : Cursor} {f : Function}
    (hc : c.Valid) (hlength : length ≤ c.rest.length)
    (h : (body d {} hdr pool length).runFrom c = (.ok f, c')) :
    ∃ lines table, f = (coded d hdr pool length c).lined lines ∧
      c.Through (c.rest.take length ++ table) c' ∧ Encode.lineTable d lines = .ok table ∧
      (d.lineWidth = 0 → lines = []) ∧
      ∀ known ∈ (coded d hdr pool length c).boundaries?, ∀ e ∈ lines, e.1 ∈ known := by
  have hthrough := Cursor.through_advance hlength
  rw [runFrom_body, if_neg (Nat.not_lt.mpr hlength)] at h
  split at h
  · rename_i hline
    cases h
    refine ⟨[], [], (coded_lined_nil _ _ _ _).symm, by rwa [List.append_nil], ?_, fun _ => rfl,
      by simp⟩
    unfold Encode.lineTable
    rw [if_pos hline]
    rfl
  · rename_i hline
    split at h
    · rename_i lines c₁ hrun
      cases h
      have hvalid := hthrough.valid hc
      obtain ⟨table, hthrough', hwritten⟩ := lineTable_consumes hline _ hvalid hrun
      refine ⟨lines, table, rfl, hthrough.trans hthrough', hwritten, fun h => absurd h hline, ?_⟩
      rintro known hknown
      rw [hknown] at hrun
      exact lineTable_known hvalid hrun
    · cases h

/-- **A function that was decoded to its end** occupies the bytes it was read from. -/
theorem exists_occupies (hd : d.Regular) {c c' : Cursor} {f : Function} (hc : c.Valid)
    (h : (function d {} functionCount index).runFrom c = (.ok f, c')) (hf : f.error = none) :
    ∃ head code table, c.Through (head ++ code ++ table) c' ∧
      f.Occupies d functionCount index c.offset head code table := by
  rw [function_eq] at h
  obtain ⟨⟨hdr, pool, length⟩, c₁, hhead, h⟩ := runFrom_bind_ok h
  obtain ⟨head, sizes, hthrough, hframes, rfl⟩ := functionHead_framed d functionCount index hc hhead
  have hc₁ := hthrough.valid hc
  dsimp only at h
  cases hcode : code d hdr.locals pool {} c₁ length with
  | error e =>
    -- Such a function keeps its error.
    have herror (lines : List (Nat × Nat)) :
        ((coded d hdr pool length c₁).lined lines).error = some e.error := by
      unfold coded
      rw [hcode]
      rfl
    exfalso
    by_cases hlength : length ≤ c₁.rest.length
    · obtain ⟨lines, table, rfl, -⟩ := body_ok hc₁ hlength h
      rw [herror] at hf
      cases hf
    · rw [runFrom_body, if_pos (Nat.not_le.mp hlength)] at h
      cases h
      rw [← coded_lined_nil, herror] at hf
      cases hf
  | ok is =>
    obtain ⟨ps, bs, c₂, hthrough₁, rfl, rfl, hstream, hlegible⟩ := exists_stream_of_code hd hc₁ hcode
    have htake : c₁.rest.take bs.length = bs := by rw [hthrough₁.rest, List.take_left]
    have hlength : bs.length ≤ c₁.rest.length := by
      rw [hthrough₁.rest, List.length_append]
      exact Nat.le_add_right _ _
    obtain ⟨lines, table, rfl, hthrough₂, hwritten, hunlined, hknown⟩ := body_ok hc₁ hlength h
    have hcoded : coded d hdr pool bs.length c₁ =
        { header := hdr, constants := pool, instructions := ps.map (·.1), codeOffset := c₁.offset
          codeLength := bs.length, error := none } := by
      unfold coded
      rw [hcode]
    have hcommands := map_command_relined (applyLines_forall₂ (ps.map (·.1)) lines)
    have hoffsets := hstream.map_offset (Nat.le_refl _)
    rw [Nat.sub_self] at hoffsets
    rw [htake] at hthrough₂
    rw [hcoded] at hknown ⊢
    refine ⟨head, bs, table, by rw [List.append_assoc]; exact hthrough.trans hthrough₂, ?_⟩
    refine ⟨hframes, hthrough.offset, rfl, ?_, ⟨ps, ?_, rfl⟩, ?_, hwritten, hunlined, rfl⟩
    · show Legible d hdr.locals pool ((applyLines (ps.map (·.1)) lines).map (·.command)) bs
      rw [hcommands]
      exact hlegible
    · show Stream d hdr.locals pool c₁.offset _ _ ((applyLines (ps.map (·.1)) lines).map (·.command))
        ps bs
      rw [hcommands]
      exact hstream
    · show ∀ e ∈ lines, e.1 ∈ Command.starts d 0 ((applyLines (ps.map (·.1)) lines).map (·.command))
      rw [hcommands, ← hoffsets]
      exact hknown _ rfl

end Decode

end Unscript
