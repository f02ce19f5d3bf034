import Unscript.Proofs.Registry.Concrete
import Unscript.Proofs.Script.Code

/-!
# Writing a decoded unit

A unit that was decoded to its end can be written, in as many bytes as its payload has. Only the
flags of a function can differ: they can announce names of local variables in a function without
any, which decoding does not record. Such a payload is the only kind that is not given back.

* `Decode.functionStarts`: the places at which the functions of a payload start.
* `Script.announcesNoLocals`: whether a payload has a function that announces the names of no
  locals.

Results:
* `Decode.function_through`, `Decode.functions_through`: a function is written as the bytes it was
  read from, its flags aside, and so are all functions.
* `Script.encode?_decode`: when writing a decoded unit gives the payload back.
-/

namespace Unscript

open Reading (Consumes runFrom_bind_ok)

namespace Decode

variable {d : Dialect} {locals : Nat} {pool : List Constant}

theorem encode_instructions_relined {is js : List Instruction}
    (h : List.Forall₂ Instruction.Relined is js) :
    Encode.instructions d js = Encode.instructions d is := by
  have hmaps : (js.mapM fun i => Encode.instruction d i.mnemonic
        (i.operands.map fun (n : Nat) => (n : Int))) =
      is.mapM fun i => Encode.instruction d i.mnemonic
        (i.operands.map fun (n : Nat) => (n : Int)) := by
    induction h with
    | nil => rfl
    | cons hij _ ih =>
      unfold Instruction.Relined at hij
      rw [List.mapM_cons, List.mapM_cons, ih, hij]
  unfold Encode.instructions
  rw [hmaps]

/-! ## One function -/

/-- The code at a place and the line table after it. -/
theorem body_through {h : Header} {length : Nat} {c c' : Cursor} {f : Function} (hc : c.Valid)
    (hrun : (body d {} h pool length).runFrom c = (.ok f, c')) :
    ∃ code lines, c.Through (code ++ lines) c' ∧ f.header = h ∧ f.constants = pool ∧
      f.codeLength = length ∧ (f.error = none → code.length = length ∧
        Decoded d h.locals pool length f.instructions ∧
        (d.Regular → Encode.instructions d f.instructions = .ok code ∧
          Encode.lineTable d f.lines = .ok lines)) := by
  obtain ⟨_, _, hget, hrun⟩ := runFrom_bind_ok hrun
  cases hget
  have htake (hle : length ≤ c.rest.length) :
      c.Through (c.rest.take length) (c.advance length) := Cursor.through_advance hle
  cases hcode : code d h.locals pool {} c length with
  | error e =>
    -- The function keeps its error, so only its place is of interest.
    simp only [hcode] at hrun
    split at hrun
    · obtain ⟨_, _, hset, hrun⟩ := runFrom_bind_ok hrun
      cases hset
      cases hrun
      have hall := Cursor.through_advance (Nat.le_refl c.rest.length)
      exact ⟨_, [], by rwa [List.append_nil], rfl, rfl, rfl, by simp⟩
    · rename_i hle
      obtain ⟨_, _, hset, hrun⟩ := runFrom_bind_ok hrun
      cases hset
      split at hrun
      · cases hrun
        exact ⟨_, [], by rw [List.append_nil]; exact htake (by omega), rfl, rfl, rfl, by simp⟩
      · rename_i hline
        obtain ⟨lines, c₁, hlines, hrun⟩ := runFrom_bind_ok hrun
        cases hrun
        have hthrough := htake (by omega)
        obtain ⟨bs, hthrough', -⟩ := lineTable_consumes hline _ (hthrough.valid hc) hlines
        exact ⟨_, bs, hthrough.trans hthrough', rfl, rfl, rfl, by simp⟩
  | ok found =>
    obtain ⟨hdecoded, hle, hwritten⟩ := code_ok hc hcode
    have hlen : (c.rest.take length).length = length := by
      rw [List.length_take, Nat.min_eq_left hle]
    simp only [hcode] at hrun
    rw [if_neg (by omega)] at hrun
    obtain ⟨_, _, hset, hrun⟩ := runFrom_bind_ok hrun
    cases hset
    split at hrun
    · rename_i hline
      cases hrun
      refine ⟨_, [], by rw [List.append_nil]; exact htake hle, rfl, rfl, rfl, fun _ =>
        ⟨hlen, hdecoded, fun hd => ⟨hwritten hd, ?_⟩⟩⟩
      unfold Encode.lineTable
      rw [if_pos hline]
      rfl
    · rename_i hline
      obtain ⟨lines, c₁, hlines, hrun⟩ := runFrom_bind_ok hrun
      cases hrun
      have hthrough := htake hle
      obtain ⟨bs, hthrough', hbs⟩ := lineTable_consumes hline _ (hthrough.valid hc) hlines
      have hrelined := applyLines_forall₂ found lines
      refine ⟨_, bs, hthrough.trans hthrough', rfl, rfl, rfl, fun _ =>
        ⟨hlen, hdecoded.relined hrelined, fun hd => ⟨?_, hbs⟩⟩⟩
      exact (encode_instructions_relined hrelined).trans (hwritten hd)

/-- A function is written part by part. -/
theorem encode_function_eq {f : Function} {head count code length lines : List UInt8}
    {parts : List (List UInt8)} (hhead : Encode.header d f.header = .ok head)
    (hcount : Bytes.ofUInt? f.constants.length (d.operandWidth .constant) = .ok count)
    (hparts : f.constants.mapM (Encode.constant d) = .ok parts)
    (hlength : Bytes.ofUInt? code.length 4 = .ok length)
    (hlines : Encode.lineTable d f.lines = .ok lines) :
    Encode.function d ⟨f.header, f.constants, code, f.lines⟩ =
      .ok (head ++ count ++ parts.flatten ++ length ++ code ++ lines) := by
  unfold Encode.function
  simp only [hhead, hcount, hparts, hlength, hlines]
  rfl

/-- What is known of a function that was decoded to its end, and of the bytes it was read from: its
instructions are decoded, and unless it has a narrow NaN it is written in as many bytes, which are
the same ones unless its header announces the names of no locals. -/
structure FunctionRead (d : Dialect) (c : Cursor) (f : Function) (bs : List UInt8) : Prop where
  decoded : Decoded d f.header.locals f.constants f.codeLength f.instructions
  written : (∀ k ∈ f.constants, d.isNarrowNaN k = false) →
    ∃ r out, f.record d = .ok r ∧ Encode.function d r = .ok out ∧ out.length = bs.length ∧
      (out = bs ↔ namesNoLocals d c = false)

/-- **One function.** -/
theorem function_through (hd : d.Regular) {functionCount index : Nat} {c c' : Cursor} {f : Function}
    (hc : c.Valid) (hrun : (function d {} functionCount index).runFrom c = (.ok f, c')) :
    ∃ bs, c.Through bs c' ∧ (f.error = none → FunctionRead d c f bs) := by
  obtain ⟨h, c₁, hheader, hrun⟩ := runFrom_bind_ok hrun
  obtain ⟨pool, c₂, hpool, hrun⟩ := runFrom_bind_ok hrun
  obtain ⟨n, c₃, hn, hrun⟩ := runFrom_bind_ok hrun
  obtain ⟨head, out, t₁, hout, hlen, heq⟩ := header_through hc hheader
  have v₁ := t₁.valid hc
  obtain ⟨bs, t₂, hconstants⟩ := constants_consumes hd functionCount v₁ hpool
  have v₂ := t₂.valid v₁
  obtain ⟨length, t₃, hlength, -, -⟩ := Reading.uint_consumes _ _ v₂ hn
  have v₃ := t₃.valid v₂
  obtain ⟨code, lines, t₄, rfl, rfl, rfl, hbody⟩ := body_through v₃ hrun
  refine ⟨_, ((t₁.trans t₂).trans t₃).trans t₄, fun hf => ?_⟩
  obtain ⟨hcode, hdecoded, hwritten⟩ := hbody hf
  refine ⟨hdecoded, fun hnan => ?_⟩
  obtain ⟨hcodeWritten, hlines⟩ := hwritten hd
  obtain ⟨count, parts, hcount, hparts, rfl⟩ := hconstants hnan
  rw [← hcode] at hlength
  refine ⟨_, _, Outcome.bind_eq_ok.mpr ⟨code, hcodeWritten, rfl⟩,
    encode_function_eq hout hcount hparts hlength hlines, ?_, ?_⟩
  · simp only [List.length_append, hlen]
    omega
  · rw [← heq]
    simp only [← List.append_assoc, List.append_cancel_right_eq]

/-! ## All functions -/

/-- The places at which functions start. -/
def functionStarts (d : Dialect) (functionCount : Nat) : Nat → Nat → Cursor → List Cursor
  | 0, _, _ => []
  | n + 1, index, c =>
    match (function d {} functionCount index).runFrom c with
    | (.ok _, c') => c :: functionStarts d functionCount n (index + 1) c'
    | (.error _, _) => [c]

/-- Whatever stops the functions of a payload, each of them was read at some place of it. -/
theorem exists_read (hd : d.Regular) {functionCount n index : Nat} {c c' : Cursor}
    {fs : List Function} {fault : Option ScriptFault} (hc : c.Valid)
    (hrun : functions d {} functionCount n index c = (fs, fault, c')) :
    ∀ f ∈ fs, ∃ (index : Nat) (c c' : Cursor), c.Valid ∧
      (function d {} functionCount index).runFrom c = (.ok f, c') := by
  induction n generalizing index c fs fault c' with
  | zero =>
    cases hrun
    simp
  | succ n ih =>
    unfold functions at hrun
    split at hrun
    · cases hrun
      simp
    · rename_i f c₁ hf
      obtain ⟨bs, hthrough, -⟩ := function_through hd hc hf
      have hall : ∀ g ∈ f :: (functions d {} functionCount n (index + 1) c₁).1,
          ∃ (index : Nat) (c c' : Cursor), c.Valid ∧
            (function d {} functionCount index).runFrom c = (.ok g, c') :=
        List.forall_mem_cons.mpr ⟨⟨index, c, c₁, hc, hf⟩, ih (hthrough.valid hc) rfl⟩
      split at hrun
      · split at hrun
        · cases hrun
          exact List.forall_mem_singleton.mpr (List.forall_mem_cons.mp hall).1
        · cases hrun
          exact hall
      · cases hrun
        exact hall

/-- **All functions.** When all functions were decoded to their ends, they are written in as many
bytes as they were read from, and in the same ones unless some function announces the names of no
locals. -/
theorem functions_written (hd : d.Regular) {functionCount n index : Nat} {c c' : Cursor}
    {fs : List Function} (hc : c.Valid)
    (hrun : functions d {} functionCount n index c = (fs, none, c'))
    (hall : ∀ f ∈ fs, f.error = none)
    (hnan : ∀ f ∈ fs, ∀ k ∈ f.constants, d.isNarrowNaN k = false) :
    ∃ bs rs outs, c.Through bs c' ∧ rs.length = n ∧ fs.mapM (Function.record d) = .ok rs ∧
      rs.mapM (Encode.function d) = .ok outs ∧ outs.flatten.length = bs.length ∧
      (outs.flatten = bs ↔
        (functionStarts d functionCount n index c).any (namesNoLocals d) = false) := by
  induction n generalizing index c fs c' with
  | zero =>
    cases hrun
    exact ⟨[], [], [], .refl c, rfl, rfl, rfl, rfl, by simp [functionStarts]⟩
  | succ n ih =>
    unfold functions at hrun
    split at hrun
    · cases hrun
    · rename_i f c₁ hf
      obtain ⟨bs, hthrough, hread⟩ := function_through hd hc hf
      split at hrun
      · rename_i e he
        -- A function that kept an error is not among those decoded to their ends.
        split at hrun
        · cases hrun
        · obtain ⟨rfl, -⟩ := Prod.mk.inj hrun
          have := hall f List.mem_cons_self
          rw [he] at this
          cases this
      · rename_i hnone
        rcases hrest : functions d {} functionCount n (index + 1) c₁ with ⟨fs', fault', c₂⟩
        simp only [hrest] at hrun
        cases hrun
        obtain ⟨r, out, hr, hout, hlen, heq⟩ := (hread hnone).written (hnan f List.mem_cons_self)
        obtain ⟨bs', rs, outs, hthrough', hcount, hrs, houts, hlen', heq'⟩ :=
          ih (hthrough.valid hc) hrest (fun g hg => hall g (List.mem_cons_of_mem _ hg))
            fun g hg => hnan g (List.mem_cons_of_mem _ hg)
        refine ⟨bs ++ bs', r :: rs, out :: outs, hthrough.trans hthrough', ?_, ?_, ?_, ?_, ?_⟩
        · rw [List.length_cons, hcount]
        · rw [Outcome.mapM_eq_ok] at hrs ⊢
          exact .cons hr hrs
        · rw [Outcome.mapM_eq_ok] at houts ⊢
          exact .cons hout houts
        · rw [List.flatten_cons, List.length_append, List.length_append, hlen, hlen']
        · unfold functionStarts
          simp only [hf, List.any_cons, Bool.or_eq_false_iff, List.flatten_cons]
          rw [← heq, ← heq']
          constructor
          · exact fun h => List.append_inj h hlen
          · rintro ⟨rfl, rfl⟩
            rfl

/-! ## The payload -/

/-- What stands before the functions is written as the bytes it was read from. -/
theorem preamble_through {c c' : Cursor} {p : Preamble} (hc : c.Valid)
    (h : preamble d c = (p, none, c')) :
    ∃ count base name, c.Through (count ++ base ++ name) c' ∧
      Bytes.ofUInt? p.functionCount (d.operandWidth .count) = .ok count ∧
      Bytes.ofText? p.baseClass = .ok base ∧ Encode.className d p.className = .ok name := by
  unfold preamble at h
  split at h
  · cases h
  rename_i functionCount c₁ hcount
  obtain ⟨count, t₁, hcountWritten, -, -⟩ := Reading.uint_consumes _ _ hc hcount
  have v₁ := t₁.valid hc
  split at h
  · cases h
  rename_i baseClass c₂ hbase
  obtain ⟨base, t₂, hbaseWritten⟩ := Reading.string_consumes _ v₁ hbase
  have v₂ := t₂.valid v₁
  unfold Encode.className
  split at h
  · rename_i hsupports
    split at h
    · cases h
    · rename_i className c₃ hname
      cases h
      obtain ⟨name, t₃, hnameWritten⟩ := Reading.string_consumes _ v₂ hname
      rw [if_pos hsupports]
      exact ⟨count, base, name, (t₁.trans t₂).trans t₃, hcountWritten, hbaseWritten, hnameWritten⟩
  · rename_i hsupports
    cases h
    rw [if_neg hsupports]
    exact ⟨count, base, [], by rw [List.append_nil]; exact t₁.trans t₂, hcountWritten,
      hbaseWritten, rfl⟩

end Decode

namespace Script

/-- Whether some function of a payload announces the names of local variables although it has
none. -/
def announcesNoLocals (d : Dialect) (payload : List UInt8) : Bool :=
  match Decode.preamble d (Cursor.ofBytes payload) with
  | (p, none, c) =>
    (Decode.functionStarts d p.functionCount p.functionCount 0 c).any (Decode.namesNoLocals d)
  | _ => false

/-- The functions of a unit were read from its payload, whatever stopped the unit. -/
theorem exists_read_of_mem {d : Dialect} (hd : d.Regular) {payload : List UInt8} {f : Function}
    (hf : f ∈ (decode d payload).functions) :
    ∃ (functionCount index : Nat) (c c' : Cursor), c.Valid ∧
      (Decode.function d {} functionCount index).runFrom c = (.ok f, c') := by
  unfold decode at hf
  split at hf
  · cases hf
  · rename_i p c hpreamble
    obtain ⟨count, base, name, hthrough, -⟩ :=
      Decode.preamble_through (Cursor.valid_ofBytes payload) hpreamble
    have hvalid := hthrough.valid (Cursor.valid_ofBytes payload)
    exact ⟨p.functionCount, Decode.exists_read hd hvalid rfl f hf⟩

/-- Functions that were decoded to their ends are decoded, whatever stopped the unit. -/
theorem decoded_of_mem {d : Dialect} (hd : d.Registered) {payload : List UInt8} {f : Function}
    (hf : f ∈ (decode d payload).functions) (hcomplete : f.complete) :
    Decoded d f.header.locals f.constants f.codeLength f.instructions := by
  obtain ⟨functionCount, index, c, c', hc, hrun⟩ := exists_read_of_mem hd.regular hf
  obtain ⟨bs, -, hread⟩ := Decode.function_through hd.regular hc hrun
  exact (hread (Option.isNone_iff_eq_none.mp hcomplete)).decoded

/-- A unit that was decoded to its end has no fault, its functions were decoded to their ends, and
nothing is left of its payload. -/
theorem complete_decode {d : Dialect} {payload : List UInt8} (h : (decode d payload).complete) :
    ∃ p c fs c', Decode.preamble d (Cursor.ofBytes payload) = (p, none, c) ∧
      Decode.functions d {} p.functionCount p.functionCount 0 c = (fs, none, c') ∧
      (∀ f ∈ fs, f.error = none) ∧ c'.limit ≤ c'.offset ∧
      decode d payload = ⟨d, p.baseClass, p.className, p.functionCount, fs, none⟩ := by
  generalize hs : decode d payload = s at h
  unfold decode at hs
  split at hs
  · rw [← hs] at h
    simp [complete] at h
  · rename_i p c hpreamble
    rcases hfunctions : Decode.functions d {} p.functionCount p.functionCount 0 c with
      ⟨fs, fault, c'⟩
    simp only [hfunctions] at hs
    rw [← hs] at h ⊢
    simp only [complete, Bool.and_eq_true, Option.isNone_iff_eq_none, List.all_eq_true] at h
    obtain ⟨hfault, hall⟩ := h
    split at hfault
    · cases hfault
    · rename_i hend
      rw [hfault] at hfunctions hend
      have hatEnd : c'.atEnd = true := by simpa using hend
      refine ⟨p, c, fs, c', hpreamble, hfunctions,
        fun f hf => Option.isNone_iff_eq_none.mp (hall f hf), of_decide_eq_true hatEnd, ?_⟩
      simp [hfault, hatEnd]

/-- **When a decoded unit gives its payload back.** A unit of a registered dialect that was decoded
to its end, without NaNs of four bytes, can be written. The result has the length of the payload,
and it is the payload exactly when no function announces the names of no locals. -/
theorem encode?_decode {d : Dialect} (hd : d.Registered) {payload : List UInt8}
    (hcomplete : (decode d payload).complete)
    (hnan : ∀ f ∈ (decode d payload).functions, ∀ k ∈ f.constants, d.isNarrowNaN k = false) :
    ∃ out, (decode d payload).encode? = .ok out ∧ out.length = payload.length ∧
      (out = payload ↔ announcesNoLocals d payload = false) := by
  obtain ⟨p, c, fs, c', hpreamble, hfunctions, hall, hend, hdecode⟩ := complete_decode hcomplete
  have hc := Cursor.valid_ofBytes payload
  obtain ⟨count, base, name, t₁, hcount, hbase, hname⟩ := Decode.preamble_through hc hpreamble
  have v₁ := t₁.valid hc
  rw [hdecode] at hnan
  obtain ⟨bs, rs, outs, t₂, hlen, hrs, houts, hlen', heq⟩ :=
    Decode.functions_written hd.regular v₁ hfunctions hall hnan
  -- The cursor stands at the end, so the payload is what was read.
  have hpayload : payload = count ++ base ++ name ++ bs := by
    have hrest := (t₁.trans t₂).rest
    have hvalid := t₂.valid v₁
    unfold Cursor.Valid at hvalid
    have hempty : c'.rest = [] := List.length_eq_zero_iff.mp (by omega)
    rw [hempty, List.append_nil] at hrest
    exact hrest
  refine ⟨count ++ base ++ name ++ outs.flatten, ?_, ?_, ?_⟩
  · have hscript : Encode.script? d rs p.baseClass p.className =
        .ok (count ++ base ++ name ++ outs.flatten) := by
      unfold Encode.script?
      simp only [hlen, hcount, hbase, hname, houts]
      rfl
    unfold encode?
    rw [hcomplete, hdecode]
    simp only [hrs]
    exact hscript
  · rw [hpayload]
    simp only [List.length_append, hlen']
  · unfold announcesNoLocals
    rw [hpreamble, hpayload, List.append_cancel_left_eq]
    exact heq

/-- A unit of the oldest dialect with one static function, whose payload is given back. -/
theorem encode?_decode_static :
    ∃ out, (decode Registry.oldest
        [1, 0, 0, 0, 0, 0, 0, 0, 0, 0, 0, 0, 0, 0, 2, 0, 0, 0, 0, 0, 0]).encode? = .ok out ∧
      out.length = 21 ∧
      (out = [1, 0, 0, 0, 0, 0, 0, 0, 0, 0, 0, 0, 0, 0, 2, 0, 0, 0, 0, 0, 0] ↔
        announcesNoLocals Registry.oldest
          [1, 0, 0, 0, 0, 0, 0, 0, 0, 0, 0, 0, 0, 0, 2, 0, 0, 0, 0, 0, 0] = false) :=
  encode?_decode (Dialect.registered_of_mem Registry.oldest_mem) (by decide +kernel)
    (by decide +kernel)

/-- Not every unit that was decoded to its end is given back: here the function announces the names
of no locals, and the announcement is lost. -/
theorem not_forall_encode?_decode :
    ¬ ∀ d ∈ Registry.standard.dialects, ∀ payload, (decode d payload).complete →
      (∀ f ∈ (decode d payload).functions, ∀ k ∈ f.constants, d.isNarrowNaN k = false) →
      (decode d payload).encode? = .ok payload := by
  intro h
  have hgiven := h Registry.oldest Registry.oldest_mem
    [1, 0, 0, 0, 0, 0, 0, 0, 0, 0, 0, 0, 0, 0, 1, 0, 0, 0, 0, 0, 0] (by decide +kernel)
    (by decide +kernel)
  have hwritten : (decode Registry.oldest
      [1, 0, 0, 0, 0, 0, 0, 0, 0, 0, 0, 0, 0, 0, 1, 0, 0, 0, 0, 0, 0]).encode?.toOption =
      some [1, 0, 0, 0, 0, 0, 0, 0, 0, 0, 0, 0, 0, 0, 0, 0, 0, 0, 0, 0, 0] := by
    decide +kernel
  rw [hgiven] at hwritten
  revert hwritten
  decide

end Script

end Unscript
