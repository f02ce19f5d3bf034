import Unscript.Proofs.Bytes.Slices

/-!
# Where a read leaves the cursor

A read that succeeds leaves the cursor behind the bytes of its field, within the limit in force. A
read that fails leaves it where it was and names that offset, for every kind of field but one: a
text is read in two parts, and when its length can be read and its bytes cannot, the cursor has
moved.

* `Cursor.Bounded`: no limit goes past the bytes.
* `Field`: the kinds of fields.
* `Field.Encodes`: the bytes of a value.
* `Field.Stands`: a field that stands next, within the limit in force.
* `Field.Passes`, `Field.Fails`: what a read gives, and where it leaves the cursor.

Results:
* `Reading.runFrom_take_cases`: bytes are taken, or the cursor stays.
* `Field.read_cases`: a read passes its field or fails in one of five ways.
* `Field.Fails.unmoved_iff`: the failures that leave the cursor where it was.
* `Field.read_exact`: a read from anywhere in a byte string, with any limit.
-/

namespace Unscript

open Number (Double)

/-! ## Places -/

namespace Cursor

variable {c c' : Cursor} {bs : List UInt8} {limit : Option Int}

/-- The limit is not beyond the end of the bytes. -/
def Bounded (c : Cursor) : Prop :=
  c.limit ≤ c.offset + c.rest.length

theorem bounded_ofBytes (data : List UInt8) (offset : Nat) (limit : Option Int) :
    (ofBytes data offset limit).Bounded := by
  have hlimit : (ofBytes data offset limit).limit ≤ data.length := by
    unfold ofBytes
    split <;> dsimp only <;> omega
  have hlength : (ofBytes data offset limit).rest.length = data.length - offset := List.length_drop
  have hoffset : (ofBytes data offset limit).offset = offset := rfl
  unfold Bounded
  omega

theorem Through.bounded (h : c.Through bs c') (hc : c.Bounded) : c'.Bounded := by
  have hlength := congrArg List.length h.rest
  rw [List.length_append] at hlength
  unfold Bounded at *
  rw [h.limit, h.offset]
  omega

end Cursor

/-- **Bytes are taken, or the cursor stays.** -/
theorem Reading.runFrom_take_cases {c : Cursor} (hc : c.Bounded) (size : Int) (name : String)
    (limit : Option Int) :
    (size < 0 ∧ (take size name limit).runFrom c = (.error ⟨.negativeLength name, c.offset⟩, c)) ∨
    (0 ≤ size ∧ c.bound limit < c.offset + size ∧
      (take size name limit).runFrom c = (.error ⟨.truncated name, c.offset⟩, c)) ∨
    ∃ bs c', c.Through bs c' ∧ (bs.length : Int) = size ∧ (c'.offset : Int) ≤ c.bound limit ∧
      (take size name limit).runFrom c = (.ok bs, c') := by
  by_cases hneg : size < 0
  · refine .inl ⟨hneg, ?_⟩
    unfold take
    rw [runFrom_bind]
    show (if size < 0 then _ else _ : Reading _).runFrom c = _
    rw [if_pos hneg]
    rfl
  by_cases hlt : c.bound limit < c.offset + size
  · exact .inr (.inl ⟨by omega, hlt, runFrom_take_of_lt name (by omega) hlt⟩)
  · have hle : size.toNat ≤ c.rest.length := by
      have := bound_le c limit
      unfold Cursor.Bounded at hc
      omega
    have hthrough := Cursor.through_advance hle
    have hsize : ((c.rest.take size.toNat).length : Int) = size := by
      rw [List.length_take, Nat.min_eq_left hle]
      omega
    have hbound : ((c.advance size.toNat).offset : Int) ≤ c.bound limit := by
      rw [hthrough.offset]
      omega
    exact .inr (.inr ⟨_, _, hthrough, hsize, hbound, runFrom_take hthrough hsize hbound⟩)

/-! ## Fields -/

/-- A field to read, by the kind of its values. All but floating point numbers and texts may have a
limit of their own. -/
inductive Field : Type → Type where
  | bytes (size : Int) (limit : Option Int) : Field (List UInt8)
  | uint (width : Int) (limit : Option Int) : Field Nat
  | sint (width : Int) (limit : Option Int) : Field Int
  | float (width : Int) : Field Double
  | text : Field String

namespace Field

variable {α : Type}

/-- Reads a field that is called `name` in errors. -/
def read (name : String) : Field α → Reading α
  | .bytes size limit => Reading.take size name limit
  | .uint width limit => Reading.uint width name limit
  | .sint width limit => Reading.sint width name limit
  | .float width => Reading.float width name
  | .text => Reading.string name

/-- The limit in force for a field. -/
def bound (c : Cursor) : Field α → Int
  | .bytes _ limit | .uint _ limit | .sint _ limit => c.bound limit
  | .float _ | .text => c.bound none

/-- The bytes of a value. A text has its length before it. -/
def Encodes (bs : List UInt8) : Field α → α → Prop
  | .bytes size _, a => (bs.length : Int) = size ∧ a = bs
  | .uint width _, a => (bs.length : Int) = width ∧ a = Bytes.toNat bs
  | .sint width _, a => (bs.length : Int) = width ∧ a = Bytes.toInt bs
  | .float width, a => (bs.length : Int) = width ∧
    (width = 4 ∧ a = Double.widen (UInt32.ofNat (Bytes.toNat bs)) ∨
      width = 8 ∧ a = ⟨UInt64.ofNat (Bytes.toNat bs)⟩)
  | .text, a => Bytes.ofText? a = .ok bs

/-- The size of a value of a field, as it is encoded. -/
def extent : Field α → α → Int
  | .bytes size _, _ | .uint size _, _ | .sint size _, _ | .float size, _ => size
  | .text, s => 4 + (Bytes.ofString s).length

/-- A field stands next: some of the bytes there, within the limit in force, encode a value. -/
def Stands (c : Cursor) (field : Field α) : Prop :=
  ∃ a bs rest, field.Encodes bs a ∧ c.rest = bs ++ rest ∧
    (c.offset + bs.length : Int) ≤ field.bound c

/-- Whether a field is a text, which is read in two parts: its length and its bytes. -/
def isText : Field α → Bool
  | .text => true
  | _ => false

/-- Floating point numbers have four or eight bytes. -/
def Known : Field α → Prop
  | .float width => width = 4 ∨ width = 8
  | _ => True

/-- The size of the part that is read first. -/
def size : Field α → Int
  | .bytes size _ | .uint size _ | .sint size _ | .float size => size
  | .text => 4

/-- The name of the part that is read first. -/
def label (name : String) : Field α → String
  | .text => name ++ " length"
  | _ => name

/-- What a read gives that succeeds: the cursor is behind the bytes of the value. -/
structure Passes (field : Field α) (c : Cursor) (a : α) (c' : Cursor) : Prop where
  bytes : ∃ bs, c.Through bs c' ∧ field.Encodes bs a
  /-- The offset grows by the encoded size. -/
  offset : (c'.offset : Int) = c.offset + field.extent a
  /-- It does not pass the limit in force. -/
  bound : (c'.offset : Int) ≤ field.bound c

/-- What a read gives that fails. The first part of the field is missing, and the cursor stays; or
the length of a text is passed and its bytes are missing, or they are passed as well and are no
text. -/
inductive Fails (field : Field α) (name : String) (c : Cursor) : DecodeError → Cursor → Prop where
  | unknown (h : ¬ field.Known) : Fails field name c ⟨.floatWidth field.size, c.offset⟩ c
  | negative (h : field.Known) (hsize : field.size < 0) :
    Fails field name c ⟨.negativeLength (field.label name), c.offset⟩ c
  | truncated (h : field.Known) (hsize : 0 ≤ field.size)
      (hbound : field.bound c < c.offset + field.size) :
    Fails field name c ⟨.truncated (field.label name), c.offset⟩ c
  | cut {n : Nat} (htext : field.isText = true) (hlength : (c.offset : Int) + 4 ≤ c.limit)
      (hn : Bytes.toNat (c.rest.take 4) = n) (hbound : c.limit < (c.offset : Int) + 4 + n) :
    Fails field name c ⟨.truncated name, c.offset + 4⟩ (c.advance 4)
  | garbled {n : Nat} (htext : field.isText = true) (hlength : (c.offset : Int) + 4 ≤ c.limit)
      (hn : Bytes.toNat (c.rest.take 4) = n) (hbound : (c.offset : Int) + 4 + n ≤ c.limit)
      (hbytes : Bytes.toText? ((c.rest.drop 4).take n) = none) :
    Fails field name c ⟨.notText name, c.offset⟩ (c.advance (4 + n))

variable {field : Field α} {name : String} {c c' : Cursor} {a : α} {bs : List UInt8}
  {e : DecodeError}

/-- The bytes of a value are as many as its size. -/
theorem Encodes.length (h : field.Encodes bs a) : (bs.length : Int) = field.extent a := by
  cases field with
  | text =>
    obtain ⟨size, rfl, hsize⟩ := Bytes.exists_of_ofText? h
    have hlength := (Bytes.toNat_of_ofUInt? hsize).1
    rw [List.length_append]
    dsimp only [extent]
    omega
  | _ => exact h.1

theorem Passes.of_through (h : c.Through bs c') (ha : field.Encodes bs a)
    (hbound : (c'.offset : Int) ≤ field.bound c) : field.Passes c a c' where
  bytes := ⟨bs, h, ha⟩
  offset := by
    rw [← ha.length, h.offset]
    omega
  bound := hbound

theorem Passes.stands (h : field.Passes c a c') : field.Stands c := by
  obtain ⟨bs, hthrough, ha⟩ := h.bytes
  have hoffset := hthrough.offset
  have hbound := h.bound
  exact ⟨a, bs, c'.rest, ha, hthrough.rest, by omega⟩

/-- Of a text, four bytes are read first, within the cursor's limit. -/
theorem of_isText (h : field.isText = true) (c : Cursor) :
    field.Known ∧ field.size = 4 ∧ field.bound c = c.limit := by
  cases field with
  | text => exact ⟨trivial, rfl, rfl⟩
  | _ => cases h

/-- A field that stands next has a first part, and it stands there too. -/
theorem Stands.first (h : field.Stands c) :
    field.Known ∧ 0 ≤ field.size ∧ c.offset + field.size ≤ field.bound c := by
  obtain ⟨a, bs, rest, ha, -, hbound⟩ := h
  have hlength := ha.length
  cases field with
  | float width => exact ⟨ha.2.imp And.left And.left, by dsimp only [size, extent] at *; omega⟩
  | _ => exact ⟨trivial, by dsimp only [size, extent] at *; omega⟩

/-- The parts of a text that stands next. -/
theorem Stands.parts (h : text.Stands c) : ∃ s rest, c.rest.drop 4 = Bytes.ofString s ++ rest ∧
    Bytes.toNat (c.rest.take 4) = (Bytes.ofString s).length ∧
    (c.offset : Int) + 4 + (Bytes.ofString s).length ≤ c.limit := by
  obtain ⟨s, bs, rest, hs, hrest, hbound⟩ := h
  obtain ⟨size, rfl, hsize⟩ := Bytes.exists_of_ofText? hs
  obtain ⟨hfour, hcount⟩ := Bytes.toNat_of_ofUInt? hsize
  have hlength : size.length = 4 := by omega
  rw [List.append_assoc] at hrest
  refine ⟨s, rest, ?_, ?_, ?_⟩
  · rw [hrest, ← hlength, List.drop_left]
  · rw [hrest, ← hlength, List.take_left, hcount]
  · rw [List.length_append, hlength] at hbound
    dsimp only [bound, Cursor.bound] at hbound
    omega

/-- A read that fails had no field to read. -/
theorem Fails.not_stands (h : field.Fails name c e c') : ¬ field.Stands c := by
  intro hstands
  obtain ⟨hknown, hsize, hbound⟩ := hstands.first
  cases h with
  | unknown h => exact h hknown
  | negative _ hneg => omega
  | truncated _ _ hlt => omega
  | cut htext _ hn hlt =>
    cases field with
    | text =>
      obtain ⟨s, -, -, hcount, hle⟩ := hstands.parts
      omega
    | _ => cases htext
  | garbled htext _ hn _ hbytes =>
    cases field with
    | text =>
      obtain ⟨s, rest, hdrop, hcount, -⟩ := hstands.parts
      rw [← hn, hdrop, hcount, List.take_left, Bytes.toText?_ofString] at hbytes
      cases hbytes
    | _ => cases htext

/-- **Failures that leave the cursor** where it was are all but those of texts whose length can be
read. -/
theorem Fails.unmoved_iff (h : field.Fails name c e c') :
    (c' = c ∧ e.offset = c.offset) ↔ ¬ (field.isText = true ∧ (c.offset : Int) + 4 ≤ c.limit) := by
  have hmoved (n : Nat) : c.advance (4 + n) ≠ c := fun heq => by
    have : c.offset + (4 + n) = c.offset := congrArg Cursor.offset heq
    omega
  cases h with
  | unknown h => exact iff_of_true ⟨rfl, rfl⟩ fun htext => h (of_isText htext.1 c).1
  | negative _ hneg =>
    refine iff_of_true ⟨rfl, rfl⟩ fun ⟨htext, _⟩ => ?_
    obtain ⟨-, hsize, -⟩ := of_isText htext c
    omega
  | truncated _ _ hlt =>
    refine iff_of_true ⟨rfl, rfl⟩ fun ⟨htext, hle⟩ => ?_
    obtain ⟨-, hsize, hbound⟩ := of_isText htext c
    omega
  | cut htext hlength =>
    exact iff_of_false (fun h => hmoved 0 h.1) (not_not_intro ⟨htext, hlength⟩)
  | garbled htext hlength =>
    exact iff_of_false (fun h => hmoved _ h.1) (not_not_intro ⟨htext, hlength⟩)

/-- A failure leaves the cursor at a place of the same byte string. -/
theorem Fails.exists_advance (h : field.Fails name c e c') : ∃ n, c' = c.advance n := by
  cases h with
  | cut => exact ⟨4, rfl⟩
  | garbled => exact ⟨_, rfl⟩
  | _ => exact ⟨0, rfl⟩

/-! ## Reads -/

section Reads

variable (hc : c.Bounded)

include hc

/-- A field that is made of the bytes that are taken, whatever is made of them. -/
theorem passes_or_fails_of_take {β : Type} {field : Field β} {limit : Option Int}
    {g : List UInt8 → β}
    (hread : field.read name = do return g (← Reading.take field.size name limit))
    (hlabel : field.label name = name) (hbound : field.bound c = c.bound limit)
    (hknown : field.Known)
    (hencodes : ∀ bs : List UInt8, (bs.length : Int) = field.size → field.Encodes bs (g bs)) :
    (∃ a c', (field.read name).runFrom c = (.ok a, c') ∧ field.Passes c a c') ∨
      ∃ e c', (field.read name).runFrom c = (.error e, c') ∧ field.Fails name c e c' := by
  rw [hread, Reading.runFrom_bind]
  obtain ⟨hneg, hrun⟩ | ⟨hsize, hlt, hrun⟩ | ⟨bs, c', hthrough, hsize, hle, hrun⟩ :=
    Reading.runFrom_take_cases hc field.size name limit <;> rw [hrun]
  · have hfails : field.Fails name c ⟨.negativeLength (field.label name), c.offset⟩ c :=
      .negative hknown hneg
    rw [hlabel] at hfails
    exact .inr ⟨_, _, rfl, hfails⟩
  · have hfails : field.Fails name c ⟨.truncated (field.label name), c.offset⟩ c :=
      .truncated hknown hsize (hbound ▸ hlt)
    rw [hlabel] at hfails
    exact .inr ⟨_, _, rfl, hfails⟩
  · exact .inl ⟨_, _, rfl, .of_through hthrough (hencodes bs hsize) (hbound ▸ hle)⟩

/-- **Texts whose length is read**: the bytes are missing, or they are a text or not. -/
theorem text_passes_or_fails_of_length {four : List UInt8} {c₁ : Cursor}
    (hfour : c.Through four c₁) (hlength : four.length = 4) (hle : (c₁.offset : Int) ≤ c.limit)
    (hsize : (Reading.uint 4 (name ++ " length")).runFrom c = (.ok (Bytes.toNat four), c₁)) :
    (∃ a c', (text.read name).runFrom c = (.ok a, c') ∧ text.Passes c a c') ∨
      ∃ e c', (text.read name).runFrom c = (.error e, c') ∧ text.Fails name c e c' := by
  show (∃ a c', (Reading.string name).runFrom c = _ ∧ _) ∨
    ∃ e c', (Reading.string name).runFrom c = _ ∧ _
  have hstart : Reading.offset.runFrom c = (.ok c.offset, c) := rfl
  unfold Reading.string
  rw [Reading.runFrom_bind, hstart]
  dsimp only
  rw [Reading.runFrom_bind, hsize]
  dsimp only
  rw [Reading.runFrom_bind]
  have htake : c.rest.take 4 = four := by rw [hfour.rest, ← hlength, List.take_left]
  have hdrop : c.rest.drop 4 = c₁.rest := by rw [hfour.rest, ← hlength, List.drop_left]
  have hoffset := hfour.offset
  have hlimit := hfour.limit
  obtain ⟨hneg, -⟩ | ⟨-, hlt, hrun⟩ | ⟨bs, c₂, hbs, hcount, hle₂, hrun⟩ :=
    Reading.runFrom_take_cases (hfour.bounded hc) (Bytes.toNat four) name none
  · omega
  · rw [hrun]
    refine .inr ⟨_, _, rfl, ?_⟩
    rw [hoffset, hfour.eq_advance, hlength]
    dsimp only [Cursor.bound] at hlt
    exact .cut rfl (by omega) (congrArg _ htake) (by omega)
  rw [hrun]
  dsimp only [Cursor.bound] at hle₂ ⊢
  have hoffset₂ := hbs.offset
  cases htext : Bytes.toText? bs with
  | some s =>
    exact .inl ⟨s, c₂, rfl, .of_through (hfour.trans hbs)
      (Bytes.ofText?_of_toText? hlength (by omega) htext) (hle₂.trans_eq hlimit)⟩
  | none =>
    refine .inr ⟨_, _, rfl, ?_⟩
    rw [(hfour.trans hbs).eq_advance, List.length_append, hlength]
    have hcount : bs.length = Bytes.toNat four := by omega
    rw [hcount]
    refine .garbled rfl (by omega) (congrArg _ htake) (by omega) ?_
    rw [hdrop, hbs.rest, ← hcount, List.take_left, htext]

/-- **Texts** are read in two parts. -/
theorem text_passes_or_fails :
    (∃ a c', (text.read name).runFrom c = (.ok a, c') ∧ text.Passes c a c') ∨
      ∃ e c', (text.read name).runFrom c = (.error e, c') ∧ text.Fails name c e c' := by
  obtain ⟨hneg, -⟩ | ⟨-, hlt, hrun⟩ | ⟨four, c₁, hfour, hsize, hle, hrun⟩ :=
    Reading.runFrom_take_cases hc 4 (name ++ " length") none
  · exact absurd hneg (by decide)
  · refine .inr ⟨⟨.truncated (name ++ " length"), c.offset⟩, c, ?_,
      .truncated trivial (by decide) hlt⟩
    show (Reading.string name).runFrom c = _
    have hstart : Reading.offset.runFrom c = (.ok c.offset, c) := rfl
    unfold Reading.string Reading.uint
    rw [Reading.runFrom_bind, hstart]
    dsimp only
    rw [Reading.runFrom_bind, Reading.runFrom_bind, hrun]
  · refine text_passes_or_fails_of_length hc hfour (by omega) hle ?_
    unfold Reading.uint
    rw [Reading.runFrom_bind, hrun]
    exact Reading.runFrom_pure _ _

/-- **A read** passes its field or fails. -/
theorem read_cases (field : Field α) (name : String) :
    (∃ a c', (field.read name).runFrom c = (.ok a, c') ∧ field.Passes c a c') ∨
      ∃ e c', (field.read name).runFrom c = (.error e, c') ∧ field.Fails name c e c' := by
  cases field with
  | bytes size limit =>
    exact passes_or_fails_of_take hc (bind_pure _).symm rfl rfl trivial fun _ hsize => ⟨hsize, rfl⟩
  | uint width limit =>
    exact passes_or_fails_of_take hc rfl rfl rfl trivial fun _ hsize => ⟨hsize, rfl⟩
  | sint width limit =>
    exact passes_or_fails_of_take hc rfl rfl rfl trivial fun _ hsize => ⟨hsize, rfl⟩
  | float width =>
    by_cases h4 : width = 4
    · subst h4
      exact passes_or_fails_of_take hc rfl rfl rfl (.inl rfl)
        fun _ hsize => ⟨hsize, .inl ⟨rfl, rfl⟩⟩
    by_cases h8 : width = 8
    · subst h8
      exact passes_or_fails_of_take hc rfl rfl rfl (.inr rfl)
        fun _ hsize => ⟨hsize, .inr ⟨rfl, rfl⟩⟩
    · refine .inr ⟨_, _, ?_, .unknown (by rintro (h | h) <;> contradiction)⟩
      show (Reading.float width name).runFrom c = _
      unfold Reading.float
      rw [if_neg h4, if_neg h8]
      rfl
  | text => exact text_passes_or_fails hc

end Reads

/-! ## Reads in a byte string -/

/-- **A read in a byte string**, from any offset and with any limit on the string.

* It succeeds exactly when its field stands there, within the limit in force. Then the cursor goes
  on by the encoded size of the value, to the end of the bytes that encode it, and not past the
  limit.
* It fails otherwise, in one of the five ways of `Fails`. The cursor stays and the error has its
  offset, except when the field is a text whose length can be read: then the cursor is behind the
  length, or behind all of the text.
* Whatever happens, the cursor is at a place of the same byte string again, with the same limit. -/
theorem read_exact (field : Field α) (name : String) (data : List UInt8) (offset : Nat)
    (limit : Option Int) :
    let c := Cursor.ofBytes data offset limit
    ((∃ a c', (field.read name).runFrom c = (.ok a, c')) ↔ field.Stands c) ∧
    (∀ a c', (field.read name).runFrom c = (.ok a, c') → field.Passes c a c') ∧
    (∀ e c', (field.read name).runFrom c = (.error e, c') → field.Fails name c e c' ∧
      ((c' = c ∧ e.offset = offset) ↔ ¬ (field.isText = true ∧ (offset : Int) + 4 ≤ c.limit))) ∧
    ∃ n, ((field.read name).runFrom c).2 = Cursor.ofBytes data (offset + n) limit := by
  intro c
  have hc : c.Bounded := Cursor.bounded_ofBytes data offset limit
  obtain ⟨a, c', hrun, hpasses⟩ | ⟨e, c', hrun, hfails⟩ := read_cases hc field name
  · obtain ⟨bs, hthrough, -⟩ := hpasses.bytes
    refine ⟨iff_of_true ⟨a, c', hrun⟩ hpasses.stands, ?_, ?_, bs.length, ?_⟩ <;> rw [hrun]
    · rintro _ _ ⟨⟩
      exact hpasses
    · rintro _ _ ⟨⟩
    · exact hthrough.eq_advance.trans (Reading.advance_ofBytes data offset bs.length)
  · obtain ⟨n, hn⟩ := hfails.exists_advance
    refine ⟨iff_of_false ?_ hfails.not_stands, ?_, ?_, n, ?_⟩ <;> rw [hrun]
    · rintro ⟨_, _, ⟨⟩⟩
    · rintro _ _ ⟨⟩
    · rintro _ _ ⟨⟩
      exact ⟨hfails, hfails.unmoved_iff⟩
    · exact hn.trans (Reading.advance_ofBytes data offset n)

/-- A text of two bytes of which one stands there: the error has the offset of its bytes, and the
cursor is there. -/
theorem read_exact_cutText :
    (text.read "name").runFrom (Cursor.ofBytes [2, 0, 0, 0, 97]) =
      (.error ⟨.truncated "name", 4⟩, Cursor.ofBytes [2, 0, 0, 0, 97] 4) ∧
    ¬ text.Stands (Cursor.ofBytes [2, 0, 0, 0, 97]) ∧
    text.Fails "name" (Cursor.ofBytes [2, 0, 0, 0, 97]) ⟨.truncated "name", 4⟩
      (Cursor.ofBytes [2, 0, 0, 0, 97] 4) := by
  have hrun : (text.read "name").runFrom (Cursor.ofBytes [2, 0, 0, 0, 97]) =
      (.error ⟨.truncated "name", 4⟩, Cursor.ofBytes [2, 0, 0, 0, 97] 4) := rfl
  obtain ⟨hstands, -, hfails, -⟩ := read_exact text "name" [2, 0, 0, 0, 97] 0 none
  refine ⟨hrun, fun h => ?_, (hfails _ _ hrun).1⟩
  obtain ⟨_, _, hok⟩ := hstands.mpr h
  rw [hrun] at hok
  cases hok

/-- **Not every failure leaves the cursor** where it was, and not every error has that offset. -/
theorem not_forall_read_unmoved :
    ¬ ∀ (α : Type) (field : Field α) (name : String) (data : List UInt8) (offset : Nat)
      (limit : Option Int) (e : DecodeError) (c' : Cursor),
      (field.read name).runFrom (Cursor.ofBytes data offset limit) = (.error e, c') →
        c'.offset = offset ∧ e.offset = offset := by
  intro h
  have hmoved := h String text "name" [2, 0, 0, 0, 97] 0 none ⟨.truncated "name", 4⟩
    (Cursor.ofBytes [2, 0, 0, 0, 97] 4) rfl
  exact absurd hmoved.2 (by decide)

end Field

end Unscript
