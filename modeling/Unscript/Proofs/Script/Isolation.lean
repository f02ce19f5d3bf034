import Unscript.Proofs.Script.Payload

/-!
# Functions with other code

When the code of one function is replaced by as many other bytes, the other functions are decoded as
before, whether or not the new code is: it is only the function itself that keeps an error. The one
exception are lines. New code that is decoded to its end can have its commands where the line table
of the function does not expect them; then the table is at fault, and the functions behind it are
lost.

* `Function.AgreeOutside`: payloads that agree outside the code of a function.
* `Function.LinesMiss`: code whose commands do not start where the lines of a function do.

Results:
* `Function.Occupies.function_recoded`, `Function.Occupies.function_missed`: the function with other
  code.
* `Script.decode_recoded`: all functions.
-/

namespace Unscript

/-! ## Other code -/

namespace Function

/-- Payloads of one length that agree outside the code of a function. -/
structure AgreeOutside (f : Function) (payload payload' : List UInt8) : Prop where
  length : payload'.length = payload.length
  before : payload'.take f.codeOffset = payload.take f.codeOffset
  after : payload'.drop (f.codeOffset + f.codeLength) = payload.drop (f.codeOffset + f.codeLength)

/-- The bytes of a payload in the place of a function's code. -/
def codeIn (f : Function) (payload : List UInt8) : List UInt8 :=
  (payload.drop f.codeOffset).take f.codeLength

/-- A payload that agrees with another outside the code of a function has only the code replaced. -/
theorem AgreeOutside.eq_append {f : Function} {before code after payload : List UInt8}
    (h : f.AgreeOutside (before ++ code ++ after) payload) (hplace : before.length = f.codeOffset)
    (hlength : code.length = f.codeLength) :
    payload = before ++ f.codeIn payload ++ after ∧ (f.codeIn payload).length = f.codeLength := by
  have hend : (before ++ code).length = f.codeOffset + f.codeLength := by
    rw [List.length_append, hplace, hlength]
  have hbefore : payload.take f.codeOffset = before := by
    rw [h.before, List.append_assoc, ← hplace, List.take_left]
  have hafter : payload.drop (f.codeOffset + f.codeLength) = after := by
    rw [h.after, ← hend, List.drop_left]
  have hlen := h.length
  rw [List.length_append, hend] at hlen
  unfold codeIn
  constructor
  · calc payload
        = payload.take f.codeOffset ++ ((payload.drop f.codeOffset).take f.codeLength ++
            (payload.drop f.codeOffset).drop f.codeLength) := by
          rw [List.take_append_drop, List.take_append_drop]
      _ = _ := by rw [List.drop_drop, hbefore, hafter, List.append_assoc]
  · rw [List.length_take, List.length_drop]
    omega

/-- Whether the function could have the code, if it were not for a line that starts where no command
does. -/
def LinesMiss (d : Dialect) (f : Function) (code : List UInt8) : Prop :=
  ∃ cs, Legible d f.header.locals f.constants cs code ∧ ∃ e ∈ f.lines, e.1 ∉ Command.starts d 0 cs

end Function

namespace Decode

variable {d : Dialect} {functionCount index o : Nat}

/-- A line table with an entry at no known boundary is not read. -/
theorem lineTable_unknown (hline : d.lineWidth ≠ 0) {known : List Nat} {lines : List (Nat × Nat)}
    {table : List UInt8} {c c' : Cursor} (hc : c.Valid) (hthrough : c.Through table c')
    (h : Encode.lineTable d lines = .ok table) (hout : ∃ e ∈ lines, e.1 ∉ known) :
    ∃ e c'', (lineTable d (some known)).runFrom c = (.error e, c'') := by
  rcases hrun : (lineTable d (some known)).runFrom c with ⟨e | lines', c''⟩
  · exact ⟨e, c'', rfl⟩
  · -- Both tables are read where no boundaries are known, so they are the same.
    obtain ⟨table', hthrough', hwritten⟩ := lineTable_consumes hline _ hc hrun
    have hframes := lineTable_frames_none (o := c.offset) hline h
    have hframes' := lineTable_frames_none (o := c.offset) hline hwritten
    have hsame := (hframes.whole hc rfl hthrough).symm.trans (hframes'.whole hc rfl hthrough')
    cases hsame
    obtain ⟨e, he, hunknown⟩ := hout
    exact absurd (lineTable_known hc hrun e he) hunknown

end Decode

namespace Function.Occupies

open Decode

variable {d : Dialect} {functionCount index o : Nat} {f : Function}
  {head code table code' : List UInt8}

/-- Lines miss a code when it is decoded and they are at none of its boundaries. -/
theorem linesMiss_iff (hd : d.Regular) (f : Function) {c c' : Cursor} (hc : c.Valid)
    (hlen : code'.length = f.codeLength) (hthrough : c.Through code' c') :
    f.LinesMiss d code' ↔
      ∃ known, (coded d f.header f.constants f.codeLength c).boundaries? = some known ∧
        ∃ e ∈ f.lines, e.1 ∉ known := by
  unfold coded
  constructor
  · rintro ⟨cs, hlegible, hmiss⟩
    obtain ⟨ps, hstream, hcode⟩ := exists_code_eq_ok hc hlegible hthrough
    have hoffsets := hstream.map_offset (Nat.le_refl _)
    rw [Nat.sub_self] at hoffsets
    rw [hlen] at hcode
    rw [hcode]
    exact ⟨_, rfl, hoffsets ▸ hmiss⟩
  · rintro ⟨known, hknown, hmiss⟩
    cases hcode : Decode.code d f.header.locals f.constants {} c f.codeLength with
    | error e =>
      rw [hcode] at hknown
      cases hknown
    | ok is =>
      obtain ⟨ps, bs, c₂, hthrough', hlen', rfl, hstream, hlegible⟩ :=
        exists_stream_of_code hd hc hcode
      have hbytes : bs = code' :=
        (List.append_inj (hthrough'.rest.symm.trans hthrough.rest) (hlen'.trans hlen.symm)).1
      have hoffsets := hstream.map_offset (Nat.le_refl _)
      rw [Nat.sub_self] at hoffsets
      rw [hcode] at hknown
      cases hknown
      exact ⟨_, hbytes ▸ hlegible, hoffsets ▸ hmiss⟩

/-- **A function with other code** is decoded, its lines included, unless they miss the code. -/
theorem function_recoded (hd : d.Regular) (h : f.Occupies d functionCount index o head code table)
    (hlen : code'.length = f.codeLength) (hlines : ¬ f.LinesMiss d code') {c c' : Cursor}
    (hc : c.Valid) (ho : c.offset = o) (hthrough : c.Through (head ++ code' ++ table) c') :
    ∃ g, (function d {} functionCount index).runFrom c = (.ok g, c') ∧
      g.header = f.header ∧ g.constants = f.constants ∧
      g.codeOffset = f.codeOffset ∧ g.codeLength = f.codeLength := by
  obtain ⟨c₂, hthrough, htable⟩ := hthrough.split
  obtain ⟨c₁, hhead, hcode⟩ := hthrough.split
  have hc₁ := hhead.valid hc
  have hplace : c₁.offset = f.codeOffset := by rw [hhead.offset, ho, h.place]
  rw [h.runFrom_function hlen hc ho hhead hcode]
  by_cases hline : d.lineWidth = 0
  · rw [h.table_eq_nil hline] at htable
    rw [if_pos hline, Cursor.Through.eq (.refl c₂) htable]
    exact ⟨_, rfl, rfl, rfl, hplace, rfl⟩
  · rw [linesMiss_iff hd f hc₁ hlen hcode] at hlines
    have hframes := lineTable_frames (o := c₂.offset) hline
      (fun known hknown e he => not_not.mp fun hout => hlines ⟨known, hknown, e, he, hout⟩) h.written
    rw [if_neg hline, hframes.whole (hcode.valid hc₁) rfl htable]
    exact ⟨_, rfl, rfl, rfl, hplace, rfl⟩

/-- A function whose lines miss its code is not decoded. -/
theorem function_missed (hd : d.Regular) (h : f.Occupies d functionCount index o head code table)
    (hlen : code'.length = f.codeLength) (hlines : f.LinesMiss d code') {c c' : Cursor}
    (hc : c.Valid) (ho : c.offset = o) (hthrough : c.Through (head ++ code' ++ table) c') :
    ∃ e c'', (function d {} functionCount index).runFrom c = (.error e, c'') := by
  obtain ⟨c₂, hthrough, htable⟩ := hthrough.split
  obtain ⟨c₁, hhead, hcode⟩ := hthrough.split
  have hc₁ := hhead.valid hc
  have hline : d.lineWidth ≠ 0 := by
    intro hline
    obtain ⟨-, -, e, he, -⟩ := hlines
    rw [h.unlined hline] at he
    cases he
  obtain ⟨known, hknown, hmiss⟩ := (linesMiss_iff hd f hc₁ hlen hcode).mp hlines
  obtain ⟨e, c'', hrun⟩ := lineTable_unknown hline (hcode.valid hc₁) htable h.written hmiss
  rw [h.runFrom_function hlen hc ho hhead hcode, if_neg hline, hknown, hrun]
  exact ⟨e, c'', rfl⟩

end Function.Occupies

namespace Decode.Row

variable {d : Dialect} {functionCount index o : Nat} {f : Function} {fs fs' : List Function}
  {head code table code' bs bs' : List UInt8}

section Replaced

variable (hd : d.Regular) (hbefore : Row d functionCount index o fs bs)
  (hf : f.Occupies d functionCount (index + fs.length) (o + bs.length) head code table)
  (hlen : code'.length = f.codeLength)

include hd hbefore hf hlen

/-- **A row with other code** in one of its functions is decoded to its end, unless the lines of the
function miss the code. -/
theorem functions_recoded
    (hafter : Row d functionCount (index + fs.length + 1)
      (o + bs.length + (head ++ code ++ table).length) fs' bs')
    (hlines : ¬ f.LinesMiss d code') {c c' : Cursor} (hc : c.Valid) (ho : c.offset = o)
    (hthrough : c.Through (bs ++ (head ++ code' ++ table ++ bs')) c') :
    ∃ g, functions d {} functionCount (fs.length + (fs'.length + 1)) index c =
        (fs ++ g :: fs', none, c') ∧ g.header = f.header ∧ g.constants = f.constants := by
  obtain ⟨c₁, h₁, hrest⟩ := hthrough.split
  obtain ⟨c₂, h₂, h₃⟩ := hrest.split
  have hc₁ := h₁.valid hc
  have ho₁ : c₁.offset = o + bs.length := by rw [h₁.offset, ho]
  have ho₂ : c₂.offset = o + bs.length + (head ++ code ++ table).length := by
    rw [h₂.offset, ho₁]
    simp only [List.length_append, hlen, hf.length]
  obtain ⟨g, hrun, hheader, hconstants, hcodeOffset, hcodeLength⟩ :=
    hf.function_recoded hd hlen hlines hc₁ ho₁ h₂
  have hinside : g.codeOffset + g.codeLength ≤ c₂.offset := by
    rw [hcodeOffset, hcodeLength, ho₂, hf.place, ← hf.length]
    simp only [List.length_append]
    omega
  have hlater := hafter.functions_eq (h₂.valid hc₁) ho₂ h₃
  exact ⟨g, hbefore.functions_append hc ho h₁ (functions_succ hrun (Or.inr hinside) hlater),
    hheader, hconstants⟩

/-- A row is decoded up to a function whose lines miss its code. -/
theorem functions_missed (hlines : f.LinesMiss d code') (n : Nat) {c c' : Cursor} (hc : c.Valid)
    (ho : c.offset = o) (hthrough : c.Through (bs ++ (head ++ code' ++ table ++ bs')) c') :
    ∃ e c'', functions d {} functionCount (fs.length + (n + 1)) index c =
      (fs, some (.framing e), c'') := by
  obtain ⟨c₁, h₁, hrest⟩ := hthrough.split
  obtain ⟨c₂, h₂, -⟩ := hrest.split
  have ho₁ : c₁.offset = o + bs.length := by rw [h₁.offset, ho]
  obtain ⟨e, c'', hrun⟩ := hf.function_missed hd hlen hlines (h₁.valid hc) ho₁ h₂
  have hlost : functions d {} functionCount (n + 1) (index + fs.length) c₁ =
      ([], some (.framing e), c'') := by
    rw [functions, hrun]
  have hall := hbefore.functions_append hc ho h₁ hlost
  rw [List.append_nil] at hall
  exact ⟨e, c'', hall⟩

end Replaced

end Decode.Row

namespace Decode.Laid

variable {d : Dialect} {p : Preamble} {fs : List Function} {head bs : List UInt8}

/-- **A payload with other code** in one of its functions. -/
theorem decode_replaced (hd : d.Regular) (h : Laid d p fs head bs) {i : Nat} {f : Function}
    (hi : fs[i]? = some f) {payload : List UInt8} (hagree : f.AgreeOutside (head ++ bs) payload) :
    (¬ f.LinesMiss d (f.codeIn payload) →
      ∃ g, Script.decode d payload =
          ⟨d, p.baseClass, p.className, p.functionCount, fs.set i g, none⟩ ∧
        g.header = f.header ∧ g.constants = f.constants) ∧
    (f.LinesMiss d (f.codeIn payload) →
      ∃ e, Script.decode d payload =
        ⟨d, p.baseClass, p.className, p.functionCount, fs.take i, some (.framing e)⟩) := by
  obtain ⟨bs₁, front, code, table, bs₂, rfl, hbefore, hf, hafter⟩ := h.row.split hi
  have hplace : (head ++ bs₁ ++ front).length = f.codeOffset := by
    rw [hf.place, List.length_append, List.length_append]
  have hwhole : head ++ (bs₁ ++ (front ++ code ++ table ++ bs₂)) =
      head ++ bs₁ ++ front ++ code ++ (table ++ bs₂) := by simp
  rw [hwhole] at hagree
  obtain ⟨hpayload, hlen⟩ := hagree.eq_append hplace hf.length
  generalize f.codeIn payload = code' at hpayload hlen ⊢
  -- The functions stand between two places, and no bytes behind the second.
  have hc := Cursor.valid_ofBytes payload
  have hstart : (Cursor.ofBytes payload).rest =
      head ++ (bs₁ ++ (front ++ code' ++ table ++ bs₂)) := by
    rw [hpayload]
    simp [Cursor.ofBytes]
  obtain ⟨c₁, h₁, hrest₁⟩ := Cursor.exists_through hstart
  obtain ⟨c₂, h₂, hrest₂⟩ := Cursor.exists_through (hrest₁.trans (List.append_nil _).symm)
  have hc₁ := h₁.valid hc
  have ho₁ : c₁.offset = head.length := h₁.offset.trans (Nat.zero_add _)
  have hlt : i < fs.length := (List.getElem?_eq_some_iff.mp hi).1
  have htake : (fs.take i).length = i := by rw [List.length_take, Nat.min_eq_left (Nat.le_of_lt hlt)]
  have hcount : (fs.take i).length + ((fs.drop (i + 1)).length + 1) = fs.length := by
    rw [htake, List.length_drop]
    omega
  have hindex : 0 + i = 0 + (fs.take i).length := by rw [htake]
  rw [hindex] at hf hafter
  constructor
  · intro hlines
    obtain ⟨g, hall, hheader, hconstants⟩ :=
      hbefore.functions_recoded hd hf hlen hafter hlines hc₁ ho₁ h₂
    rw [hcount] at hall
    have hvalid := h₂.valid hc₁
    unfold Cursor.Valid at hvalid
    have hatEnd : c₂.atEnd = true := by
      unfold Cursor.atEnd
      rw [hrest₂] at hvalid
      rw [decide_eq_true_eq, hvalid]
      simp
    refine ⟨g, ?_, hheader, hconstants⟩
    rw [h.decode_eq h₁ hall, List.set_eq_take_append_cons_drop, if_pos hlt, hatEnd]
    rfl
  · intro hlines
    obtain ⟨e, c₃, hall⟩ := hbefore.functions_missed hd hf hlen hlines _ hc₁ ho₁ h₂
    rw [hcount] at hall
    refine ⟨e, ?_⟩
    rw [h.decode_eq h₁ hall]
    rfl

end Decode.Laid

namespace Script

/-- **Other code in a function.** In a payload of a registered dialect that is decoded to its end, let
the code of one function be replaced by as many other bytes. Unless the function's lines miss the new
code, the unit has no error of its own, every other function is decoded as before, and the function
keeps its header and constants. If they do miss it, the functions before are all that is left, and
the unit has an error. -/
theorem decode_recoded {d : Dialect} (hd : d.Registered) {payload payload' : List UInt8}
    (h : (decode d payload).complete) {i : Nat} {f : Function}
    (hi : (decode d payload).functions[i]? = some f) (hagree : f.AgreeOutside payload payload') :
    (¬ f.LinesMiss d (f.codeIn payload') →
      (decode d payload').error? = none ∧
      (decode d payload').functions.length = (decode d payload).functions.length ∧
      (∀ j ≠ i, (decode d payload').functions[j]? = (decode d payload).functions[j]?) ∧
      ∃ g, (decode d payload').functions[i]? = some g ∧ g.header = f.header ∧
        g.constants = f.constants) ∧
    (f.LinesMiss d (f.codeIn payload') →
      (decode d payload').error?.isSome ∧
      (decode d payload').functions = (decode d payload).functions.take i) := by
  obtain ⟨p, fs, head, bs, rfl, hlaid, hdecode⟩ := Decode.exists_laid hd.regular h
  rw [hdecode] at hi ⊢
  obtain ⟨hkept, hlost⟩ := hlaid.decode_replaced hd.regular hi hagree
  refine ⟨fun hlines => ?_, fun hlines => ?_⟩
  · obtain ⟨g, hg, hheader, hconstants⟩ := hkept hlines
    rw [hg]
    refine ⟨rfl, List.length_set, fun j hj => List.getElem?_set_ne hj.symm, g, ?_, hheader,
      hconstants⟩
    exact List.getElem?_set_self (List.getElem?_eq_some_iff.mp hi).1
  · obtain ⟨e, he⟩ := hlost hlines
    rw [he]
    exact ⟨rfl, rfl⟩

/-- A unit of the first dialect with line tables. It has two functions; the first has the given three
bytes of code and a line that starts at its second byte. -/
def linedPayload (code : List UInt8) : List UInt8 :=
  [2, 0, 0, 0, 0, 0] ++ [0, 0, 0, 0, 0, 0, 0, 0, 0, 1, 0, 0, 3, 0, 0, 0] ++ code ++
    [1, 0, 1, 0, 0, 0, 5, 0] ++ [0, 0, 0, 0, 0, 0, 0, 0, 0, 0, 0, 1, 0, 0, 0, 0, 0, 0]

/-- With three instructions of one byte the unit is decoded to its end. -/
theorem linedPayload_first :
    (decode Registry.firstLined (linedPayload [0, 0, 0])).complete ∧
    ∃ f, (decode Registry.firstLined (linedPayload [0, 0, 0])).functions[0]? = some f ∧
      f.AgreeOutside (linedPayload [0, 0, 0]) (linedPayload [1, 0, 0]) ∧
      f.codeIn (linedPayload [1, 0, 0]) = [1, 0, 0] ∧
      f.header.locals = 0 ∧ f.constants = [.nil] ∧ f.lines = [(1, 5)] := by
  have hfirst : (decode Registry.firstLined (linedPayload [0, 0, 0])).functions[0]?.any fun f =>
      f.codeOffset == 22 && f.codeLength == 3 && f.header.locals == 0 && f.constants == [.nil] &&
        f.lines == [(1, 5)] := by decide +kernel
  obtain ⟨f, hf, hdata⟩ := (Option.any_eq_true _ _).mp hfirst
  simp only [Bool.and_eq_true, beq_iff_eq, and_assoc] at hdata
  obtain ⟨hplace, hlength, hlocals, hconstants, hlines⟩ := hdata
  refine ⟨by decide +kernel, f, hf, ⟨rfl, ?_, ?_⟩, ?_, hlocals, hconstants, hlines⟩
  · rw [hplace]
    rfl
  · rw [hplace, hlength]
    rfl
  · unfold Function.codeIn
    rw [hplace, hlength]
    rfl

/-- With one instruction of three bytes instead, the line is missed and both functions are lost. -/
theorem decode_recoded_missed :
    (decode Registry.firstLined (linedPayload [0, 0, 0])).complete ∧
    ∃ f, (decode Registry.firstLined (linedPayload [0, 0, 0])).functions[0]? = some f ∧
      f.AgreeOutside (linedPayload [0, 0, 0]) (linedPayload [1, 0, 0]) ∧
      f.LinesMiss Registry.firstLined (f.codeIn (linedPayload [1, 0, 0])) ∧
      (decode Registry.firstLined (linedPayload [1, 0, 0])).functions = [] := by
  obtain ⟨hcomplete, f, hf, hagree, hcode, hlocals, hconstants, hlines⟩ := linedPayload_first
  have hmiss : f.LinesMiss Registry.firstLined (f.codeIn (linedPayload [1, 0, 0])) := by
    refine ⟨[⟨"LOAD_CONST", [0]⟩], ?_, (1, 5), ?_, by decide +kernel⟩
    · rw [hcode, hlocals, hconstants]
      decide +kernel
    · rw [hlines]
      exact List.mem_singleton_self _
  have hspec := decode_recoded (Dialect.registered_of_mem Registry.firstLined_mem) hcomplete hf hagree
  exact ⟨hcomplete, f, hf, hagree, hmiss, (hspec.2 hmiss).2⟩

/-- Other code in a function does not always leave the others as they are: here its lines miss the
code, and the function behind it is lost. -/
theorem not_forall_decode_recoded :
    ¬ ∀ d ∈ Registry.standard.dialects, ∀ payload payload' (i : Nat) f, (decode d payload).complete →
      (decode d payload).functions[i]? = some f → f.AgreeOutside payload payload' →
      ∀ j ≠ i, (decode d payload').functions[j]? = (decode d payload).functions[j]? := by
  intro h
  obtain ⟨hcomplete, f, hf, hagree, -⟩ := linedPayload_first
  have hsame := h _ Registry.firstLined_mem _ _ 0 f hcomplete hf hagree 1 (by decide)
  have hlost : (decode Registry.firstLined (linedPayload [1, 0, 0])).functions[1]?.isSome = false := by
    decide +kernel
  have hthere : (decode Registry.firstLined (linedPayload [0, 0, 0])).functions[1]?.isSome = true := by
    decide +kernel
  rw [hsame, hthere] at hlost
  cases hlost

end Script

end Unscript
