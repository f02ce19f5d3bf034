import Unscript.Proofs.Bytes.Reading
import Unscript.Proofs.Registry.Known
import Unscript.Script.Encode

/-!
# Tables written back

The pool of constants, the line table and the header of a function are lists of fields. What a
reading step makes of the bytes of a list, the writer turns into the same bytes, with one
exception: the flags of a function can announce names of local variables although it has none, and
then the announcement is not written.

* `Dialect.isNarrowNaN`: the constants that reading changes.
* `Decode.headerFlags`: the count of locals and the flags that the bytes of a header give.

Results:
* `Decode.times_consumes`: the values read by repeating a step go through one part each.
* `Decode.constants_consumes`, `Decode.lineTable_consumes`: the tables are written back.
* `Decode.header_consumes`: a header is written back unless it announces the names of no locals.
-/

namespace Unscript

open Number (Double)
open Reading (Consumes runFrom_bind_ok)

variable {α : Type}

namespace Decode

/-! ## Lists of fields -/

/-- **Repetition.** The values read by repeating a step go through one part of the bytes each. -/
theorem times_consumes {step : Reading α} {W : α → List UInt8 → Prop} (hstep : Consumes step W)
    (n : Nat) :
    Consumes (times step n) fun as bs =>
      as.length = n ∧ ∃ parts, List.Forall₂ W as parts ∧ bs = parts.flatten := by
  induction n with
  | zero =>
    intro c c' as hc h
    cases h
    exact ⟨[], .refl c, rfl, [], .nil, rfl⟩
  | succ n ih =>
    intro c c' as hc h
    obtain ⟨a, c₁, ha, h⟩ := runFrom_bind_ok h
    obtain ⟨rest, c₂, hrest, h⟩ := runFrom_bind_ok h
    cases h
    obtain ⟨bs, hthrough, hw⟩ := hstep hc ha
    obtain ⟨bs', hthrough', hlen, parts, hparts, rfl⟩ := ih (hthrough.valid hc) hrest
    exact ⟨bs ++ parts.flatten, hthrough.trans hthrough', by rw [List.length_cons, hlen],
      bs :: parts, .cons hw hparts, rfl⟩

end Decode

/-! ## Constants -/

/-- Whether a constant is a NaN that the dialect keeps in four bytes. -/
def Dialect.isNarrowNaN (d : Dialect) : Constant → Bool
  | .float x => d.constants.floatWidth == 4 && x.isNaN
  | _ => false

namespace Decode

/-- A constant is written after the tag of its kind. -/
theorem encode_constant_eq {d : Dialect} {c : Constant} {tag : Nat} {head body : List UInt8}
    (htag : d.constants.tagOf? c.kindName = some (tag : Int))
    (hhead : Bytes.ofUInt? tag 1 = .ok head) (hbody : Encode.constantBody d c = .ok body) :
    Encode.constant d c = .ok (head ++ body) := by
  unfold Encode.constant
  rw [htag]
  simp only [hhead, hbody]
  rfl

/-- **Constants.** A constant is written as the bytes it was read from. -/
theorem constant_consumes {d : Dialect} (hd : d.Regular) (functionCount : Nat) :
    Consumes (constant d functionCount) fun k bs =>
      d.isNarrowNaN k = false → Encode.constant d k = .ok bs := by
  intro c c' k hc h
  obtain ⟨_, _, hoff, h⟩ := runFrom_bind_ok h
  cases hoff
  obtain ⟨tag, c₁, htag, h⟩ := runFrom_bind_ok h
  obtain ⟨head, hthrough, hhead, -, -⟩ := Reading.uint_consumes _ _ hc htag
  have hc₁ := hthrough.valid hc
  split at h
  · cases h
  · rename_i name hname
    obtain ⟨kind, hkind, htagOf⟩ := hd.kind hname
    rw [hkind] at h
    -- What is read after the tag decides the constant; its kind is the tag's in every case.
    cases kind with
    | nil =>
      cases h
      refine ⟨head, hthrough, fun _ => ?_⟩
      have := encode_constant_eq (c := .nil) htagOf hhead rfl
      rwa [List.append_nil] at this
    | bool =>
      obtain ⟨_, _, hoff, h⟩ := runFrom_bind_ok h
      cases hoff
      obtain ⟨raw, c₂, hraw, h⟩ := runFrom_bind_ok h
      obtain ⟨body, hthrough', hbody, -, -⟩ := Reading.uint_consumes _ _ hc₁ hraw
      dsimp only at h
      split at h
      · obtain ⟨_, _, hfail, -⟩ := runFrom_bind_ok h
        cases hfail
      · rename_i hle
        cases h
        refine ⟨head ++ body, hthrough.trans hthrough', fun _ => encode_constant_eq htagOf hhead ?_⟩
        -- Only zero and one are left, and these are what the two truth values are written as.
        have hraw : (if (raw == 1) = true then 1 else 0 : Int) = raw := by
          split <;> rename_i hone <;> rw [beq_iff_eq] at hone <;> omega
        show Bytes.ofUInt? (if (raw == 1) = true then 1 else 0) 1 = .ok body
        rw [hraw]
        exact hbody
    | int =>
      obtain ⟨n, c₂, hn, h⟩ := runFrom_bind_ok h
      cases h
      obtain ⟨body, hthrough', hbody⟩ := Reading.sint_consumes hd.intWidth_pos _ hc₁ hn
      exact ⟨head ++ body, hthrough.trans hthrough', fun _ => encode_constant_eq htagOf hhead hbody⟩
    | float =>
      obtain ⟨x, c₂, hx, h⟩ := runFrom_bind_ok h
      cases h
      obtain ⟨body, hthrough', hbody⟩ := Reading.float_consumes _ _ hc₁ hx
      refine ⟨head ++ body, hthrough.trans hthrough', fun hnan => ?_⟩
      refine encode_constant_eq htagOf hhead (hbody fun h4 hx => ?_)
      simp [Dialect.isNarrowNaN, h4, hx] at hnan
    | string =>
      obtain ⟨s, c₂, hs, h⟩ := runFrom_bind_ok h
      cases h
      obtain ⟨body, hthrough', hbody⟩ := Reading.string_consumes _ hc₁ hs
      exact ⟨head ++ body, hthrough.trans hthrough', fun _ => encode_constant_eq htagOf hhead hbody⟩
    | resource =>
      obtain ⟨s, c₂, hs, h⟩ := runFrom_bind_ok h
      cases h
      obtain ⟨body, hthrough', hbody⟩ := Reading.string_consumes _ hc₁ hs
      exact ⟨head ++ body, hthrough.trans hthrough', fun _ => encode_constant_eq htagOf hhead hbody⟩
    | subscript =>
      obtain ⟨_, _, hoff, h⟩ := runFrom_bind_ok h
      cases hoff
      obtain ⟨index, c₂, hindex, h⟩ := runFrom_bind_ok h
      obtain ⟨body, hthrough', hbody, -, -⟩ := Reading.uint_consumes _ _ hc₁ hindex
      dsimp only at h
      split at h
      · obtain ⟨_, _, hfail, -⟩ := runFrom_bind_ok h
        cases hfail
      · cases h
        exact ⟨head ++ body, hthrough.trans hthrough',
          fun _ => encode_constant_eq htagOf hhead hbody⟩

/-- The parts of a list are written one after another. -/
theorem mapM_of_forall₂ {W : α → List UInt8 → Prop}
    {write : α → Except EncodeError (List UInt8)} {as : List α} {parts : List (List UInt8)}
    (h : List.Forall₂ W as parts) (hw : ∀ a ∈ as, ∀ bs, W a bs → write a = .ok bs) :
    as.mapM write = .ok parts := by
  rw [Outcome.mapM_eq_ok]
  induction h with
  | nil => exact .nil
  | cons hab _ ih =>
    refine .cons (hw _ List.mem_cons_self _ hab) (ih fun a ha => hw a (List.mem_cons_of_mem _ ha))

/-- **The pool.** A pool without narrow NaNs is written as the bytes it was read from. -/
theorem constants_consumes {d : Dialect} (hd : d.Regular) (functionCount : Nat) :
    Consumes (constants d functionCount) fun pool bs =>
      (∀ k ∈ pool, d.isNarrowNaN k = false) →
        ∃ count parts, Bytes.ofUInt? pool.length (d.operandWidth .constant) = .ok count ∧
          pool.mapM (Encode.constant d) = .ok parts ∧ bs = count ++ parts.flatten := by
  intro c c' pool hc h
  obtain ⟨n, c₁, hn, h⟩ := runFrom_bind_ok h
  obtain ⟨count, hthrough, hcount, -, -⟩ := Reading.uint_consumes _ _ hc hn
  obtain ⟨bs, hthrough', hlen, parts, hparts, rfl⟩ :=
    times_consumes (constant_consumes hd functionCount) n (hthrough.valid hc) h
  subst hlen
  exact ⟨count ++ parts.flatten, hthrough.trans hthrough', fun hnan =>
    ⟨count, parts, hcount, mapM_of_forall₂ hparts fun k hk bs hw => hw (hnan k hk), rfl⟩⟩

/-! ## Line tables -/

theorem lineEntry_consumes (d : Dialect) (boundaries : Option (List Nat)) :
    Consumes (lineEntry d boundaries) fun e bs => Encode.lineEntry d e = .ok bs := by
  intro c c' e hc h
  obtain ⟨_, _, hoff, h⟩ := runFrom_bind_ok h
  cases hoff
  obtain ⟨offset, c₁, hoffset, h⟩ := runFrom_bind_ok h
  obtain ⟨line, c₂, hline, h⟩ := runFrom_bind_ok h
  obtain ⟨bs, hthrough, hbs, -, -⟩ := Reading.uint_consumes _ _ hc hoffset
  obtain ⟨bs', hthrough', hbs', -, -⟩ := Reading.uint_consumes _ _ (hthrough.valid hc) hline
  have hwritten : Encode.lineEntry d (offset, line) = .ok (bs ++ bs') := by
    unfold Encode.lineEntry
    simp only [hbs, hbs']
    rfl
  split at h
  · split at h
    · cases h
      exact ⟨bs ++ bs', hthrough.trans hthrough', hwritten⟩
    · cases h
  · cases h
    exact ⟨bs ++ bs', hthrough.trans hthrough', hwritten⟩

/-- **Line tables.** A line table is written as the bytes it was read from, in the order of its
entries. -/
theorem lineTable_consumes {d : Dialect} (hline : d.lineWidth ≠ 0)
    (boundaries : Option (List Nat)) :
    Consumes (lineTable d boundaries) fun lines bs => Encode.lineTable d lines = .ok bs := by
  intro c c' lines hc h
  obtain ⟨n, c₁, hn, h⟩ := runFrom_bind_ok h
  obtain ⟨count, hthrough, hcount, -, -⟩ := Reading.uint_consumes _ _ hc hn
  obtain ⟨bs, hthrough', hlen, parts, hparts, rfl⟩ :=
    times_consumes (lineEntry_consumes d boundaries) n (hthrough.valid hc) h
  subst hlen
  refine ⟨count ++ parts.flatten, hthrough.trans hthrough', ?_⟩
  show Encode.lineTable d lines = .ok (count ++ parts.flatten)
  unfold Encode.lineTable
  rw [if_neg hline]
  simp only [hcount, Outcome.mapM_eq_ok.mpr hparts]
  rfl

/-! ## Headers -/

/-- The count of locals and the flags that the bytes of a header give. -/
def headerFlags (d : Dialect) : Reading (Nat × Nat) := do
  let _ ← Reading.string "function name"
  let _ ← Reading.uint 1 "argument count"
  let locals ← Reading.uint (d.operandWidth .slot) "local count"
  let _ ← Reading.uint (d.operandWidth .count) "stack size"
  let flags ← Reading.uint 1 "function flags"
  return (locals, flags)

/-- Whether the header at a place announces names of local variables although there are none. -/
def namesNoLocals (d : Dialect) (c : Cursor) : Bool :=
  match (headerFlags d).runFrom c with
  | (.ok (locals, flags), _) => locals == 0 && flags % 2 == localNamesFlag
  | _ => false

/-- The names of the locals, if the flags announce them. -/
theorem localNames_consumes (flags locals : Nat) :
    Consumes (if flags % 2 = 1 then times (Reading.string "local name") locals else pure [])
      fun names bs => (names.isEmpty ↔ ¬ (flags % 2 = 1 ∧ locals ≠ 0)) ∧
        (names.isEmpty ∨ names.length = locals) ∧
        ∃ parts, names.mapM Bytes.ofText? = .ok parts ∧ bs = parts.flatten := by
  intro c c' names hc h
  split at h
  · rename_i hodd
    obtain ⟨bs, hthrough, hlen, parts, hparts, rfl⟩ :=
      times_consumes (Reading.string_consumes _) locals hc h
    refine ⟨parts.flatten, hthrough, ?_, Or.inr hlen, parts, Outcome.mapM_eq_ok.mpr hparts, rfl⟩
    rw [List.isEmpty_iff, ← List.length_eq_zero_iff, hlen]
    simp [hodd]
  · rename_i heven
    cases h
    exact ⟨[], .refl c, by simp [heven], Or.inl rfl, [], rfl, rfl⟩

/-- The flags that are written for a header that was read: those that were read, except that the
names of no locals are not announced. -/
def writtenFlags (locals flags : Nat) : Nat :=
  if locals = 0 ∧ flags % 2 = localNamesFlag then flags - localNamesFlag else flags

theorem writtenFlags_eq {locals flags : Nat} {named : Bool} (hle : flags ≤ 3)
    (hnamed : named = true ↔ flags % 2 = 1 ∧ locals ≠ 0) :
    ((if named then localNamesFlag else 0 : Nat) : Int) +
      (if decide (staticFlag ≤ flags) then staticFlag else 0 : Nat) =
        writtenFlags locals flags := by
  unfold writtenFlags localNamesFlag staticFlag
  simp only [decide_eq_true_eq]
  by_cases hn : named = true
  · have := hnamed.mp hn
    rw [if_pos hn]
    split <;> split <;> omega
  · have := mt hnamed.mpr hn
    rw [if_neg hn]
    split <;> split <;> omega

theorem writtenFlags_eq_self {locals flags : Nat} :
    writtenFlags locals flags = flags ↔ ¬ (locals = 0 ∧ flags % 2 = localNamesFlag) := by
  unfold writtenFlags localNamesFlag
  split <;> omega

/-- A header is written field by field. -/
theorem encode_header_eq {d : Dialect} {h : Header} {name arguments locals stack flags : List UInt8}
    {parts : List (List UInt8)} {n : Nat} (hname : Bytes.ofText? h.name = .ok name)
    (harguments : Bytes.ofUInt? h.arguments 1 = .ok arguments)
    (hlocals : Bytes.ofUInt? h.locals (d.operandWidth .slot) = .ok locals)
    (hstack : Bytes.ofUInt? h.stack (d.operandWidth .count) = .ok stack)
    (hn : ((if !h.localNames.isEmpty then localNamesFlag else 0 : Nat) : Int) +
      (if h.isStatic then staticFlag else 0 : Nat) = n)
    (hflags : Bytes.ofUInt? n 1 = .ok flags)
    (hlen : h.localNames.isEmpty ∨ h.localNames.length = h.locals)
    (hnames : h.localNames.mapM Bytes.ofText? = .ok parts) :
    Encode.header d h =
      .ok (name ++ arguments ++ locals ++ stack ++ flags ++ parts.flatten) := by
  have hguard : (!h.localNames.isEmpty && h.localNames.length != h.locals) = false := by
    rcases hlen with hlen | hlen <;> simp [hlen]
  unfold Encode.header
  simp only [hname, harguments, hlocals, hstack, hn, hflags, hguard, hnames]
  rfl

/-- **Headers.** A header is written in as many bytes as it was read from. They are the same bytes
unless the header announces the names of no locals. -/
theorem header_through {d : Dialect} {index : Nat} {c c' : Cursor} {h : Header} (hc : c.Valid)
    (hrun : (header d index).runFrom c = (.ok h, c')) :
    ∃ bs out, c.Through bs c' ∧ Encode.header d h = .ok out ∧ out.length = bs.length ∧
      (out = bs ↔ namesNoLocals d c = false) := by
  obtain ⟨name, c₁, hname, hrun⟩ := runFrom_bind_ok hrun
  obtain ⟨_, _, hoff, hrun⟩ := runFrom_bind_ok hrun
  cases hoff
  obtain ⟨arguments, c₂, harguments, hrun⟩ := runFrom_bind_ok hrun
  obtain ⟨locals, c₃, hlocals, hrun⟩ := runFrom_bind_ok hrun
  dsimp only at hrun
  split at hrun
  · obtain ⟨_, _, hfail, -⟩ := runFrom_bind_ok hrun
    cases hfail
  obtain ⟨stack, c₄, hstack, hrun⟩ := runFrom_bind_ok hrun
  obtain ⟨_, _, hoff, hrun⟩ := runFrom_bind_ok hrun
  cases hoff
  obtain ⟨flags, c₅, hflags, hrun⟩ := runFrom_bind_ok hrun
  split at hrun
  · obtain ⟨_, _, hfail, -⟩ := runFrom_bind_ok hrun
    cases hfail
  rename_i hle
  obtain ⟨names, c₆, hnames, hrun⟩ : ∃ names c₆,
      (if flags % 2 = 1 then times (Reading.string "local name") locals else pure []).runFrom c₅ =
        (.ok names, c₆) ∧
      (pure ⟨index, name, arguments, locals, stack, decide (staticFlag ≤ flags), names⟩ :
        Reading Header).runFrom c₆ = (.ok h, c') := by
    split at hrun
    · rename_i hodd
      rw [if_pos hodd]
      exact runFrom_bind_ok hrun
    · rename_i heven
      rw [if_neg heven]
      exact runFrom_bind_ok hrun
  cases hrun
  have hflagged : namesNoLocals d c = (locals == 0 && flags % 2 == localNamesFlag) := by
    unfold namesNoLocals headerFlags
    simp only [Reading.runFrom_bind, hname, harguments, hlocals, hstack, hflags,
      Reading.runFrom_pure]
  obtain ⟨bs₁, t₁, w₁⟩ := Reading.string_consumes _ hc hname
  have v₁ := t₁.valid hc
  obtain ⟨bs₂, t₂, w₂, -, -⟩ := Reading.uint_consumes _ _ v₁ harguments
  have v₂ := t₂.valid v₁
  obtain ⟨bs₃, t₃, w₃, -, -⟩ := Reading.uint_consumes _ _ v₂ hlocals
  have v₃ := t₃.valid v₂
  obtain ⟨bs₄, t₄, w₄, -, -⟩ := Reading.uint_consumes _ _ v₃ hstack
  have v₄ := t₄.valid v₃
  obtain ⟨bs₅, t₅, -, hlen, hval⟩ := Reading.uint_consumes _ _ v₄ hflags
  have v₅ := t₅.valid v₄
  obtain ⟨bs₆, t₆, hempty, hcount, parts, w₆, rfl⟩ := localNames_consumes flags locals v₅ hnames
  have hflagBytes : bs₅ = Bytes.ofNat 1 flags := by
    have h1 : bs₅.length = 1 := by omega
    rw [← hval, ← h1, Bytes.ofNat_toNat]
  have hle3 : flags ≤ 3 := by
    unfold localNamesFlag staticFlag at hle
    omega
  have hwle : writtenFlags locals flags ≤ 3 := by
    unfold writtenFlags
    split <;> omega
  have hwritten : Bytes.ofUInt? (writtenFlags locals flags) 1 =
      .ok (Bytes.ofNat 1 (writtenFlags locals flags)) := by
    unfold Bytes.ofUInt?
    have hpow : (256 : Int) ^ (1 : Int).toNat = 256 := rfl
    rw [if_neg (by omega), hpow, if_pos ⟨by omega, by omega⟩]
    rfl
  have hwflags : ((if !names.isEmpty then localNamesFlag else 0 : Nat) : Int) +
      (if decide (staticFlag ≤ flags) then staticFlag else 0 : Nat) =
        writtenFlags locals flags := by
    refine writtenFlags_eq hle3 ?_
    rw [Bool.not_eq_true', ← Bool.not_eq_true, hempty, not_not]
  refine ⟨bs₁ ++ bs₂ ++ bs₃ ++ bs₄ ++ bs₅ ++ parts.flatten, _,
    ((((t₁.trans t₂).trans t₃).trans t₄).trans t₅).trans t₆,
    encode_header_eq w₁ w₂ w₃ w₄ hwflags hwritten hcount w₆, ?_, ?_⟩
  · simp [hflagBytes]
  · rw [hflagged, hflagBytes, List.append_cancel_right_eq, List.append_cancel_left_eq,
      ← Bool.not_eq_true, Bool.and_eq_true, beq_iff_eq, beq_iff_eq, ← writtenFlags_eq_self]
    constructor
    · intro h
      have hnat := congrArg Bytes.toNat h
      simp only [Bytes.ofNat, Bytes.toNat, UInt8.toNat_ofNat'] at hnat
      omega
    · intro h
      rw [h]

end Decode

end Unscript
