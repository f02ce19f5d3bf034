import Unscript.Proofs.Script.Payload

/-!
# Reading a written unit

A unit that is written from records whose parts are in order is decoded to its end, and everything
comes back but the index of a function, which is its position.

* `FunctionRecord.Sound`: a record whose parts are in order, and the commands of its code.
* `FunctionRecord.Gives`: a function that has all that is in a record.

Results:
* `Decode.exists_occupies_of_record`: what is written of a sound record is decoded to its end, as a
  function that has all that is in it.
* `Encode.decode_script?`: what is decoded of a written unit.
-/

namespace Unscript

open Reading (Frames)

/-- A record whose parts are in order. Its arguments are locals, its constants can be read back, its
code consists of the given commands, and its lines start where a command does. -/
structure FunctionRecord.Sound (d : Dialect) (functionCount : Nat) (r : FunctionRecord)
    (cs : List Command) : Prop where
  arguments : r.header.arguments ≤ r.header.locals
  constants : ∀ k ∈ r.constants, k.Kept d functionCount
  code : Legible d r.header.locals r.constants cs r.code
  lines : ∀ e ∈ r.lines, e.1 ∈ Command.starts d 0 cs

/-- A function that has all that is in a record with the given commands, at a position of the unit. In
a dialect with line tables it has the record's. -/
structure FunctionRecord.Gives (d : Dialect) (index : Nat) (r : FunctionRecord) (cs : List Command)
    (f : Function) : Prop where
  header : f.header = { r.header with index }
  constants : f.constants = r.constants
  commands : f.instructions.map (·.command) = cs
  codeLength : f.codeLength = r.code.length
  lines : d.lineWidth ≠ 0 → f.lines = r.lines

namespace Decode

variable {d : Dialect} {functionCount : Nat}

/-- **A sound record** is written as the bytes of a function that has all that is in it. -/
theorem exists_occupies_of_record (hd : d.Registered) {r : FunctionRecord} {cs : List Command}
    {bs : List UInt8} (hr : r.Sound d functionCount cs) (h : Encode.function d r = .ok bs)
    (index o : Nat) :
    ∃ f head code table, bs = head ++ code ++ table ∧
      f.Occupies d functionCount index o head code table ∧ r.Gives d index cs f := by
  obtain ⟨header, hheader, h⟩ := Outcome.bind_eq_ok.mp h
  obtain ⟨count, hcount, h⟩ := Outcome.bind_eq_ok.mp h
  obtain ⟨pool, hpool, h⟩ := Outcome.bind_eq_ok.mp h
  obtain ⟨length, hlength, h⟩ := Outcome.bind_eq_ok.mp h
  obtain ⟨table, htable, h⟩ := Outcome.bind_eq_ok.mp h
  cases h
  have hhead : (functionHead d functionCount index).Frames o
      ({ r.header with index }, r.constants, r.code.length)
      (header ++ (count ++ pool.flatten ++ length))
      (r.header.sizes d ++ (d.poolSizes r.constants ++ [4])) := by
    refine (header_frames (h := { r.header with index }) hr.arguments hheader).bind ?_
    exact (constants_frames hd hr.constants hcount hpool).bind
      (Frames.uint _ none (by simp) hlength).map
  generalize hbytes : header ++ (count ++ pool.flatten ++ length) = head at hhead
  -- A table that is not written is not read.
  obtain ⟨lines, hlines, hunlined, hwritten, hkept⟩ : ∃ lines, (∀ e ∈ lines, e ∈ r.lines) ∧
      (d.lineWidth = 0 → lines = []) ∧ Encode.lineTable d lines = .ok table ∧
      (d.lineWidth ≠ 0 → lines = r.lines) := by
    by_cases hline : d.lineWidth = 0
    · refine ⟨[], by simp, fun _ => rfl, ?_, fun h => absurd hline h⟩
      unfold Encode.lineTable at htable ⊢
      rw [if_pos hline] at htable
      rw [if_pos hline]
      exact htable
    · exact ⟨r.lines, fun e he => he, fun h => absurd h hline, htable, fun _ => rfl⟩
  obtain ⟨ps, hstream⟩ := exists_stream (o + head.length) hr.code.toSpells
    (Nat.le_refl (o + head.length + r.code.length))
  have hcommands : (applyLines (ps.map (·.1)) lines).map (·.command) = cs :=
    (map_command_relined (applyLines_forall₂ _ _)).trans hstream.map_command
  let f : Function := {
    header := { r.header with index }, constants := r.constants
    instructions := applyLines (ps.map (·.1)) lines, codeOffset := o + head.length
    codeLength := r.code.length, lines, error := none }
  refine ⟨f, head, r.code, table, by simp [← hbytes], ?_, rfl, rfl, hcommands, rfl, hkept⟩
  refine ⟨hhead.congr rfl (List.append_assoc _ _ _).symm, rfl, rfl, ?_, ⟨ps, ?_, rfl⟩, ?_, hwritten,
    hunlined, rfl⟩
  · exact hcommands ▸ hr.code
  · exact hcommands ▸ hstream
  · exact hcommands ▸ fun e he => hr.lines e (hlines e he)

/-- **Sound records** are written as a row of functions that have all that is in them. -/
theorem exists_row_of_records (hd : d.Registered) {records : List FunctionRecord}
    {parts : List (List UInt8)} (hsound : ∀ r ∈ records, ∃ cs, r.Sound d functionCount cs)
    (h : List.Forall₂ (fun r bs => Encode.function d r = .ok bs) records parts) (index o : Nat) :
    ∃ fs, Row d functionCount index o fs parts.flatten ∧ fs.length = records.length ∧
      ∀ (j : Nat) r cs, records[j]? = some r → r.Sound d functionCount cs →
        ∃ f, fs[j]? = some f ∧ r.Gives d (index + j) cs f := by
  induction h generalizing index o with
  | nil => exact ⟨[], .nil index o, rfl, by simp⟩
  | @cons r bs records parts hbs _ ih =>
    obtain ⟨cs, hr⟩ := hsound r List.mem_cons_self
    obtain ⟨f, head, code, table, rfl, hf, hgives⟩ := exists_occupies_of_record hd hr hbs index o
    obtain ⟨fs, hrow, hlen, hrest⟩ := ih (fun r hr => hsound r (List.mem_cons_of_mem _ hr))
      (index + 1) (o + (head ++ code ++ table).length)
    refine ⟨f :: fs, .cons hf hrow, by rw [List.length_cons, List.length_cons, hlen], ?_⟩
    intro j r' cs' hj hr'
    cases j with
    | zero =>
      cases hj
      cases legible_unique hr.code hr'.code
      exact ⟨f, rfl, hgives⟩
    | succ j =>
      obtain ⟨g, hg, hgives⟩ := hrest j r' cs' hj hr'
      exact ⟨g, hg, by rwa [Nat.add_assoc, Nat.add_comm 1] at hgives⟩

/-- **What is written before the functions** is read back. -/
theorem preamble_frames {p : Preamble} {count base name : List UInt8}
    (hcount : Bytes.ofUInt? p.functionCount (d.operandWidth .count) = .ok count)
    (hbase : Bytes.ofText? p.baseClass = .ok base)
    (hname : Encode.className d p.className = .ok name) :
    (preambleFields d).Frames 0 p (count ++ base ++ name) (p.sizes d) := by
  suffices hright : (preambleFields d).Frames 0 p (count ++ (base ++ name))
      ([d.operandWidth .count] ++ (Reading.textSizes p.baseClass ++
        (if d.supports "class_name" then Reading.textSizes p.className else []))) from
    hright.congr (by simp) (by simp [Preamble.sizes])
  unfold preambleFields
  refine (Frames.uint _ none (by simp) hcount).bind ((Frames.string _ hbase).bind ?_)
  unfold Encode.className at hname
  by_cases hsupports : d.supports "class_name" = true
  · rw [if_pos hsupports] at hname ⊢
    rw [if_pos hsupports]
    exact (Frames.string _ hname).map
  · rw [if_neg hsupports] at hname ⊢
    rw [if_neg hsupports]
    split at hname
    · rename_i hempty
      cases hname
      rw [← String.isEmpty_iff.mp hempty]
      exact .pure _ _
    · cases hname

end Decode

namespace Encode

/-- **What is decoded of a written unit.** If a unit of a registered dialect is written from sound
records, it is decoded to its end. The names come back, and at every position there is a function
that has all that is in the record there, the commands of its code included. -/
theorem decode_script? {d : Dialect} (hd : d.Registered) {records : List FunctionRecord}
    {base name : String} {payload : List UInt8}
    (hsound : ∀ r ∈ records, ∃ cs, r.Sound d records.length cs)
    (h : script? d records base name = .ok payload) :
    (Script.decode d payload).complete ∧ (Script.decode d payload).baseClass = base ∧
    (Script.decode d payload).className = name ∧
    (Script.decode d payload).functions.length = records.length ∧
    ∀ (i : Nat) r cs, records[i]? = some r → r.Sound d records.length cs →
      ∃ f, (Script.decode d payload).functions[i]? = some f ∧ r.Gives d i cs f ∧
        Decoded d f.header.locals f.constants f.codeLength f.instructions := by
  obtain ⟨count, hcount, h⟩ := Outcome.bind_eq_ok.mp h
  obtain ⟨baseBytes, hbase, h⟩ := Outcome.bind_eq_ok.mp h
  obtain ⟨nameBytes, hname, h⟩ := Outcome.bind_eq_ok.mp h
  obtain ⟨parts, hparts, h⟩ := Outcome.bind_eq_ok.mp h
  cases h
  have hframes : (Decode.preambleFields d).Frames 0 ⟨records.length, base, name⟩
    (count ++ baseBytes ++ nameBytes) _ := Decode.preamble_frames hcount hbase hname
  obtain ⟨fs, hrow, hlen, hgives⟩ := Decode.exists_row_of_records hd hsound
    (Outcome.mapM_eq_ok.mp hparts) 0 (count ++ baseBytes ++ nameBytes).length
  have hlaid : Decode.Laid d _ fs _ _ := ⟨hframes, hrow, hlen⟩
  have hdecode := hlaid.decode_append []
  rw [List.append_nil, if_pos rfl] at hdecode
  have hcomplete : (Script.decode d (count ++ baseBytes ++ nameBytes ++ parts.flatten)).complete := by
    rw [hdecode, Script.complete, Bool.and_eq_true, List.all_eq_true]
    exact ⟨rfl, hrow.complete⟩
  refine ⟨hcomplete, ?_, ?_, ?_, ?_⟩
  · rw [hdecode]
  · rw [hdecode]
  · rw [hdecode]
    exact hlen
  · intro i r cs hi hr
    obtain ⟨f, hf, hgives⟩ := hgives i r cs hi hr
    rw [Nat.zero_add] at hgives
    have hmem : f ∈ (Script.decode d
        (count ++ baseBytes ++ nameBytes ++ parts.flatten)).functions := by
      rw [hdecode]
      exact List.mem_of_getElem? hf
    refine ⟨f, by rw [hdecode]; exact hf, hgives, ?_⟩
    exact Script.decoded_of_mem hd hmem (hrow.complete f (List.mem_of_getElem? hf))

/-- A unit of the first dialect with line tables, with one function that loads a constant in a loop. -/
theorem decode_script?_loop :
    let r : FunctionRecord := {
      header := { name := "loop", arguments := 1, locals := 2, stack := 1, localNames := ["a", "b"] }
      constants := [.string "x", .subscript 0, .bool true]
      code := [1, 2, 0, 39, 0, 0, 0, 0], lines := [(3, 9), (0, 8)] }
    let cs : List Command := [⟨"LOAD_CONST", [2]⟩, ⟨"JUMP", [0]⟩]
    r.Sound Registry.firstLined 1 cs ∧
      ∃ payload, script? Registry.firstLined [r] "Node" = .ok payload ∧
        (Script.decode Registry.firstLined payload).complete ∧
        ∃ f, (Script.decode Registry.firstLined payload).functions[0]? = some f ∧
          r.Gives Registry.firstLined 0 cs f := by
  intro r cs
  have hsound : r.Sound Registry.firstLined 1 cs :=
    ⟨by decide, by simp [r, Constant.Kept], by decide +kernel, by decide +kernel⟩
  have hwritten : (script? Registry.firstLined [r] "Node").toOption.isSome := by decide +kernel
  obtain ⟨payload, hpayload⟩ := Option.isSome_iff_exists.mp hwritten
  have hscript := Outcome.toOption_eq_some.mp hpayload
  have hspec := decode_script? (Dialect.registered_of_mem Registry.firstLined_mem)
    (List.forall_mem_singleton.mpr ⟨cs, hsound⟩) hscript
  obtain ⟨f, hf, hgives, -⟩ := hspec.2.2.2.2 0 r cs rfl hsound
  exact ⟨hsound, payload, hscript, hspec.1, f, hf, hgives⟩

end Encode

end Unscript
