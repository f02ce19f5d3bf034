import Unscript.Proofs.Bytes.Framing
import Unscript.Proofs.Script.Tables

/-!
# The layout of a payload

A payload is a row of fields: numbers of fixed widths and the bodies of texts. The sizes of the
fields are known by what they hold, so they can be told from a decoded unit.

* `Header.sizes`, `Constant.sizes`, `Instruction.sizes`, `Dialect.lineSizes`: the fields of the parts
  of a function, in the order of the bytes.
* `Function.headSizes`: those before the code.

Results:
* `Decode.header_framed`, `Decode.constants_framed`: what is read of a function before its code is
  framed by these fields.
* `Decode.header_frames`, `Decode.constants_frames`, `Decode.lineTable_frames`: so is what was
  written.
-/

namespace Unscript

open Reading (Framed Frames textSizes)

/-! ## Sizes -/

/-- The fields of a header. -/
def Header.sizes (d : Dialect) (h : Header) : List Nat :=
  textSizes h.name ++ [1, d.operandWidth .slot, d.operandWidth .count, 1] ++
    h.localNames.flatMap textSizes

/-- The fields of a constant, its tag first. -/
def Constant.sizes (d : Dialect) : Constant → List Nat
  | .nil | .foreign _ => [1]
  | .bool _ => [1, 1]
  | .int _ => [1, d.constants.intWidth.toNat]
  | .float _ => [1, d.constants.floatWidth.toNat]
  | .string s | .resource s => 1 :: textSizes s
  | .subscript _ => [1, 2]

/-- The fields of a pool, its count first. -/
def Dialect.poolSizes (d : Dialect) (pool : List Constant) : List Nat :=
  d.operandWidth .constant :: pool.flatMap (·.sizes d)

/-- The fields of an instruction, its opcode first. -/
def Instruction.sizes (d : Dialect) (i : Instruction) : List Nat :=
  d.opcodeWidth :: i.kinds.map d.operandWidth

/-- The fields of a line table, if the dialect has one. -/
def Dialect.lineSizes (d : Dialect) (lines : List (Nat × Nat)) : List Nat :=
  if d.lineWidth = 0 then []
  else d.operandWidth .count :: lines.flatMap fun _ => [d.operandWidth .jump, d.lineWidth.toNat]

/-- The fields of a function before its code. -/
def Function.headSizes (d : Dialect) (f : Function) : List Nat :=
  f.header.sizes d ++ d.poolSizes f.constants ++ [4]

/-- The fields of a function. -/
def Function.sizes (d : Dialect) (f : Function) : List Nat :=
  f.headSizes d ++ f.instructions.flatMap (·.sizes d) ++ d.lineSizes f.lines

/-- The fields of a payload that was decoded to its end. -/
def Script.sizes (s : Script) : List Nat :=
  s.dialect.operandWidth .count :: textSizes s.baseClass ++
    (if s.dialect.supports "class_name" then textSizes s.className else []) ++
    s.functions.flatMap (·.sizes s.dialect)

/-- Whether a constant can be read back: a subscript is that of one of the functions, and a floating
point number has a pattern of the dialect's width. -/
def Constant.Kept (d : Dialect) (functionCount : Nat) : Constant → Prop
  | .subscript index => index < functionCount
  | .float x => d.constants.floatWidth = 4 → x.IsNarrow
  | _ => True

namespace Decode

variable {α : Type} {d : Dialect} {o : Nat}

/-! ## Lists of fields -/

/-- Values that are framed each are framed one after another. -/
theorem times_frames {step : Reading α} {size : α → List Nat} {as : List α}
    {parts : List (List UInt8)}
    (h : List.Forall₂ (fun a bs => ∀ o, step.Frames o a bs (size a)) as parts) :
    (times step as.length).Frames o as parts.flatten (as.flatMap size) := by
  induction h generalizing o with
  | nil => exact .pure o []
  | cons ha _ ih => exact (ha o).bind ih.map

theorem times_framed {step : Reading α} {size : α → List Nat}
    (h : step.Framed fun a s => s = size a) (n : Nat) :
    (times step n).Framed fun as s => s = as.flatMap size := by
  induction n with
  | zero => exact .pure rfl
  | succ n ih =>
    refine h.bind fun a s hs => ih.bind fun as s' hs' => .pure ?_
    rw [hs, hs', List.append_nil, List.flatMap_cons]

/-! ## Constants -/

theorem constant_framed (d : Dialect) (functionCount : Nat) :
    (constant d functionCount).Framed fun k s => s = k.sizes d := by
  unfold constant
  refine Framed.offset.bind fun _ _ h₀ => (Framed.uint 1 _ none).bind fun tag _ h₁ => ?_
  subst h₀ h₁
  have hsubscript : (do
      let position ← Reading.offset
      let index ← Reading.uint 2 "sub-script reference"
      if functionCount ≤ index then Reading.failAt position (.subscriptRange index)
      return .subscript index : Reading Constant).Framed fun k s => [] ++ ([1] ++ s) = k.sizes d := by
    refine Framed.offset.bind fun _ _ h₀ => (Framed.uint 2 _ none).bind fun index _ h₁ => ?_
    subst h₀ h₁
    dsimp only
    split
    · exact .failAt_bind _ _ _
    · exact .pure rfl
  split
  · exact .failAt _ _
  · split
    · exact .pure rfl
    · refine Framed.offset.bind fun _ _ h₀ => (Framed.uint 1 _ none).bind fun raw _ h₁ => ?_
      subst h₀ h₁
      dsimp only
      split
      · exact .failAt_bind _ _ _
      · exact .pure rfl
    · refine (Framed.sint _ _).bind fun _ _ h => .pure ?_
      rw [h]
      rfl
    · refine (Framed.float _ _).bind fun _ _ h => .pure ?_
      rw [h]
      rfl
    · refine (Framed.string _).bind fun _ _ h => .pure ?_
      rw [h]
      rfl
    · refine (Framed.string _).bind fun _ _ h => .pure ?_
      rw [h]
      rfl
    · exact hsubscript
    · exact hsubscript

/-- **The pool** is framed. -/
theorem constants_framed (d : Dialect) (functionCount : Nat) :
    (constants d functionCount).Framed fun pool s => s = d.poolSizes pool := by
  unfold constants
  refine (Framed.uint _ _ none).bind fun n _ h => ?_
  subst h
  exact (times_framed (constant_framed d functionCount) n).mono fun _ _ h => by rw [h]; rfl

/-! ## Headers -/

/-- **Headers** are framed. -/
theorem header_framed (d : Dialect) (index : Nat) :
    (header d index).Framed fun h s => s = h.sizes d := by
  unfold header
  refine (Framed.string _).bind fun name _ h₁ => Framed.offset.bind fun _ _ h₂ =>
    (Framed.uint 1 _ none).bind fun arguments _ h₃ => (Framed.uint _ _ none).bind fun locals _ h₄ => ?_
  subst h₁ h₂ h₃ h₄
  dsimp only
  split
  · exact .failAt_bind _ _ _
  refine (Framed.uint _ _ none).bind fun stack _ h₅ => Framed.offset.bind fun _ _ h₆ =>
    (Framed.uint 1 _ none).bind fun flags _ h₇ => ?_
  subst h₅ h₆ h₇
  split
  · exact .failAt_bind _ _ _
  split
  · refine (times_framed (Framed.string _) locals).bind fun names _ h₈ => .pure ?_
    subst h₈
    simp [Header.sizes]
  · refine Framed.bind (W := fun names s => names = [] ∧ s = []) (.pure ⟨rfl, rfl⟩)
      fun names _ h₈ => .pure ?_
    obtain ⟨rfl, rfl⟩ := h₈
    simp [Header.sizes]

/-! ## What was written -/

/-- **Constants** that can be read back are framed. -/
theorem constant_frames (hd : d.Registered) {functionCount : Nat} {k : Constant} {bs : List UInt8}
    (hk : k.Kept d functionCount) (h : Encode.constant d k = .ok bs) (o : Nat) :
    (constant d functionCount).Frames o k bs (k.sizes d) := by
  unfold Encode.constant at h
  split at h
  · cases h
  rename_i tag htag
  obtain ⟨head, hhead, h⟩ := Outcome.bind_eq_ok.mp h
  obtain ⟨body, hbody, h⟩ := Outcome.bind_eq_ok.mp h
  cases h
  obtain ⟨n, rfl⟩ := Int.eq_ofNat_of_zero_le (Bytes.nonneg_of_ofUInt? hhead)
  have hname := hd.nameOfTag?_of_tagOf? htag
  have htagged := Frames.uint (o := o) "constant tag" none (by simp) hhead
  unfold constant
  -- The kind is known by the tag; what is read after it is what was written.
  cases k with
  | nil =>
    cases hbody
    refine (Frames.offset_bind (htagged.bind ?_)).congr rfl rfl
    rw [hname]
    exact .pure _ _
  | bool b =>
    obtain ⟨m, hm, hb⟩ : ∃ m : Nat, Bytes.ofUInt? m 1 = .ok body ∧ m = if b then 1 else 0 :=
      ⟨if b then 1 else 0, by cases b <;> exact hbody, rfl⟩
    refine (Frames.offset_bind (htagged.bind ?_)).congr rfl rfl
    rw [hname]
    refine .offset_bind (((Frames.uint _ none (by simp) hm).bind ?_).congr (List.append_nil _) rfl)
    rw [if_neg (by split at hb <;> omega)]
    have hback : (m == 1) = b := by cases b <;> simp [hb]
    rw [hback]
    exact .pure _ _
  | int n =>
    refine (Frames.offset_bind (htagged.bind ?_)).congr rfl rfl
    rw [hname]
    exact (Frames.sint _ hd.regular.intWidth_pos hbody).map
  | float x =>
    refine (Frames.offset_bind (htagged.bind ?_)).congr rfl rfl
    rw [hname]
    exact (Frames.float _ hk hbody).map
  | string s =>
    refine (Frames.offset_bind (htagged.bind ?_)).congr rfl rfl
    rw [hname]
    exact (Frames.string _ hbody).map
  | resource s =>
    refine (Frames.offset_bind (htagged.bind ?_)).congr rfl rfl
    rw [hname]
    exact (Frames.string _ hbody).map
  | subscript i =>
    refine (Frames.offset_bind (htagged.bind ?_)).congr rfl rfl
    rw [hname]
    refine .offset_bind (((Frames.uint _ none (by simp) hbody).bind ?_).congr (List.append_nil _) rfl)
    rw [if_neg (Nat.not_le.mpr hk)]
    exact .pure _ _
  | foreign kind => cases hbody

/-- **Pools** of constants that can be read back are framed. -/
theorem constants_frames (hd : d.Registered) {functionCount : Nat} {pool : List Constant}
    {count : List UInt8} {parts : List (List UInt8)} (hk : ∀ k ∈ pool, k.Kept d functionCount)
    (hcount : Bytes.ofUInt? pool.length (d.operandWidth .constant) = .ok count)
    (hparts : pool.mapM (Encode.constant d) = .ok parts) :
    (constants d functionCount).Frames o pool (count ++ parts.flatten) (d.poolSizes pool) := by
  refine (Frames.uint _ none (by simp) hcount).bind (times_frames ?_)
  have hall := (List.forall₂_and_left _ _).mpr ⟨hk, Outcome.mapM_eq_ok.mp hparts⟩
  exact hall.imp fun k bs h o => constant_frames hd h.1 h.2 o

theorem lineEntry_frames {boundaries : Option (List Nat)} {e : Nat × Nat} {bs : List UInt8}
    (hknown : ∀ known ∈ boundaries, e.1 ∈ known) (h : Encode.lineEntry d e = .ok bs) (o : Nat) :
    (lineEntry d boundaries).Frames o e bs [d.operandWidth .jump, d.lineWidth.toNat] := by
  obtain ⟨offset, hoffset, h⟩ := Outcome.bind_eq_ok.mp h
  obtain ⟨line, hline, h⟩ := Outcome.bind_eq_ok.mp h
  cases h
  refine .offset_bind ((Frames.uint _ none (by simp) hoffset).bind ?_)
  refine ((Frames.uint _ none (by simp) hline).bind ?_).congr (List.append_nil _) (List.append_nil _)
  cases boundaries with
  | none => exact .pure _ _
  | some known =>
    dsimp only
    rw [if_pos (List.contains_iff_mem.mpr (hknown known rfl))]
    exact .pure _ _

/-- **Line tables** are framed, if their entries are at known boundaries. -/
theorem lineTable_frames (hline : d.lineWidth ≠ 0) {boundaries : Option (List Nat)}
    {lines : List (Nat × Nat)} {bs : List UInt8}
    (hknown : ∀ known ∈ boundaries, ∀ e ∈ lines, e.1 ∈ known)
    (h : Encode.lineTable d lines = .ok bs) :
    (lineTable d boundaries).Frames o lines bs (d.lineSizes lines) := by
  unfold Encode.lineTable at h
  rw [if_neg hline] at h
  obtain ⟨count, hcount, h⟩ := Outcome.bind_eq_ok.mp h
  obtain ⟨parts, hparts, h⟩ := Outcome.bind_eq_ok.mp h
  cases h
  unfold Dialect.lineSizes
  rw [if_neg hline]
  refine (Frames.uint _ none (by simp) hcount).bind (times_frames ?_)
  have hall := (List.forall₂_and_left _ _).mpr
    ⟨fun e he known hk => hknown known hk e he, Outcome.mapM_eq_ok.mp hparts⟩
  exact hall.imp fun e bs h o => lineEntry_frames h.1 h.2 o

theorem lineTable_frames_none (hline : d.lineWidth ≠ 0) {lines : List (Nat × Nat)}
    {bs : List UInt8} (h : Encode.lineTable d lines = .ok bs) :
    (lineTable d none).Frames o lines bs (d.lineSizes lines) :=
  lineTable_frames hline (by simp) h

/-- **Headers** with no more arguments than locals are framed. -/
theorem header_frames {h : Header} {bs : List UInt8} (harguments : h.arguments ≤ h.locals)
    (hwritten : Encode.header d h = .ok bs) :
    (header d h.index).Frames o h bs (h.sizes d) := by
  obtain ⟨name, hname, hwritten⟩ := Outcome.bind_eq_ok.mp hwritten
  obtain ⟨arguments, harg, hwritten⟩ := Outcome.bind_eq_ok.mp hwritten
  obtain ⟨locals, hlocals, hwritten⟩ := Outcome.bind_eq_ok.mp hwritten
  obtain ⟨stack, hstack, hwritten⟩ := Outcome.bind_eq_ok.mp hwritten
  obtain ⟨flags, hflags, hwritten⟩ := Outcome.bind_eq_ok.mp hwritten
  dsimp only at hwritten
  split at hwritten
  · cases hwritten
  rename_i hcount
  obtain ⟨parts, hparts, hwritten⟩ := Outcome.bind_eq_ok.mp hwritten
  cases hwritten
  -- The flags that were written say whether there are names and whether the function is static.
  obtain ⟨n, hn, hle, hodd, hstatic⟩ : ∃ n : Nat, Bytes.ofUInt? n 1 = .ok flags ∧ n ≤ 3 ∧
      (n % 2 = 1 ↔ h.localNames ≠ []) ∧ decide (staticFlag ≤ n) = h.isStatic := by
    refine ⟨_, hflags, ?_⟩
    unfold localNamesFlag staticFlag
    cases h.localNames <;> cases h.isStatic <;> simp
  suffices hright : (header d h.index).Frames o h
      (name ++ (arguments ++ (locals ++ (stack ++ (flags ++ parts.flatten)))))
      (textSizes h.name ++ ([1] ++ ([d.operandWidth .slot] ++ ([d.operandWidth .count] ++ ([1] ++
        h.localNames.flatMap textSizes))))) from
    hright.congr (by simp) (by simp [Header.sizes])
  unfold header
  refine (Frames.string _ hname).bind (.offset_bind ((Frames.uint _ none (by simp) harg).bind
    ((Frames.uint _ none (by simp) hlocals).bind ?_)))
  dsimp only
  rw [if_neg (Nat.not_lt.mpr harguments)]
  refine (Frames.uint _ none (by simp) hstack).bind (.offset_bind
    ((Frames.uint _ none (by simp) hn).bind ?_))
  rw [if_neg (by unfold localNamesFlag staticFlag; omega), hstatic]
  by_cases hnames : h.localNames = []
  · rw [if_neg (mt hodd.mp (not_not.mpr hnames))]
    have hpure : (pure [] : Reading (List String)).Frames (o + name.length + arguments.length +
        locals.length + stack.length + flags.length) h.localNames parts.flatten
        (h.localNames.flatMap textSizes) := by
      rw [hnames] at hparts ⊢
      cases hparts
      exact .pure _ _
    exact hpure.map
  · rw [if_pos (hodd.mpr hnames)]
    have hlen : h.localNames.length = h.locals := by simpa [hnames] using hcount
    have htimes : (times (Reading.string "local name") h.locals).Frames (o + name.length +
        arguments.length + locals.length + stack.length + flags.length) h.localNames parts.flatten
        (h.localNames.flatMap textSizes) := by
      rw [← hlen]
      exact times_frames ((Outcome.mapM_eq_ok.mp hparts).imp fun s bs hs o => Frames.string _ hs)
    exact htimes.map

end Decode

end Unscript
