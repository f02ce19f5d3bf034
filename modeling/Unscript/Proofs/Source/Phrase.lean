import Mathlib.Data.List.Basic
import Unscript.Source.Expr

/-!
# Reading expressions back

Source text is a row of tokens: signs and words of the language, and the texts of leaves. Tokens are
read by the strength of operators, the one that `Source.Scope.expr` writes by: operators on two
values group to the left, an operator before its operand takes what binds as strong as itself, and
attributes, indices and arguments stand behind what they belong to.

* `Source.Phrase` is what tokens say, `Source.Phrase.ofTokens?` reads them.
* `Source.Spells`: characters that tokens are spelled by, with blanks between them. Where there is
  no blank, the second token must not look like more of the first.

Results:
* `Source.Phrase.climb_stop`: reading stops at what binds weaker than its place needs.
-/

namespace Unscript.Source

/-- What an expression in source text says. A call is a callee with arguments behind it, and a
dictionary has its keys and values in turn. -/
inductive Phrase where
  | leaf (text : String)
  | attr (obj : Phrase) (name : String)
  | index (obj key : Phrase)
  | apply (callee : Phrase) (args : List Phrase)
  | binary (op : BinaryOp) (left right : Phrase)
  | unary (op : UnaryOp) (operand : Phrase)
  | cast (value : Phrase) (typeName : String)
  | array (items : List Phrase)
  | dictionary (items : List Phrase)
  deriving Repr, Inhabited

namespace Phrase

/-- The signs and words that are no leaves. -/
def reserved : List String :=
  ["(", ")", "[", "]", "\x7b", "\x7d", ",", ":", ".", "as", "not", "~"] ++
    BinaryOp.all.map BinaryOp.symbol

/-- The operator that a token before an operand stands for. -/
def prefixOp? : String → Option UnaryOp
  | "-" => some .neg
  | "~" => some .bitNot
  | "not" => some .not
  | _ => none

/-- The operator that a token between operands stands for. -/
def binaryOp? (t : String) : Option BinaryOp :=
  BinaryOp.all.find? fun op => op.symbol == t

/-- How strong a token ties what is before it to what comes behind; nothing does that has no
strength. -/
def level (t : String) : Nat :=
  match binaryOp? t with
  | some op => op.strength
  | none =>
    if t = "as" then castStrength
    else if t = "." ∨ t = "[" ∨ t = "(" then atomic
    else 0

/-- A leaf. The short form of a path stands for the call that gets the node. -/
def ofLeaf (t : String) : Phrase :=
  match t.toList with
  | '$' :: '"' :: cs => .apply (.leaf "get_node") [.leaf (String.ofList ('"' :: cs))]
  | '$' :: cs => .apply (.leaf "get_node") [.leaf (stringLiteral (String.ofList cs))]
  | _ => .leaf t

/-- What is left behind a sign that has to come next. -/
def expect (sign : String) : List String → Option (List String)
  | t :: rest => if t = sign then some rest else none
  | [] => none

/-- A name that has to come next. -/
def name : List String → Option (String × List String)
  | t :: rest => if reserved.contains t then none else some (t, rest)
  | [] => none

mutual

/-- Reads an expression all of whose operators outside of brackets are at least `least` strong. -/
def term : (fuel : Nat) → (least : Nat) → List String → Option (Phrase × List String)
  | 0, _, _ => none
  | _ + 1, _, [] => none
  | fuel + 1, least, t :: rest =>
    match prefixOp? t with
    | some op =>
      if least ≤ op.strength then do
        let (operand, rest) ← term fuel op.strength rest
        climb fuel least (.unary op operand) rest
      else none
    | none =>
      if t = "(" then do
        let (inner, rest) ← term fuel 0 rest
        let rest ← expect ")" rest
        climb fuel least inner rest
      else if t = "[" then do
        let (items, rest) ← list fuel "," "]" rest
        climb fuel least (.array items) rest
      else if t = "\x7b" then do
        let (items, rest) ← list fuel ":" "\x7d" rest
        climb fuel least (.dictionary items) rest
      else if reserved.contains t then none
      else climb fuel least (ofLeaf t) rest

/-- Reads on behind an expression while what comes is at least `least` strong. -/
def climb : (fuel : Nat) → (least : Nat) → Phrase → List String → Option (Phrase × List String)
  | 0, _, _, _ => none
  | _ + 1, _, left, [] => some (left, [])
  | fuel + 1, least, left, t :: rest =>
    if level t < least ∨ level t = 0 then some (left, t :: rest)
    else
      match binaryOp? t with
      | some op => do
        let (right, rest) ← term fuel (op.strength + 1) rest
        climb fuel least (.binary op left right) rest
      | none =>
        if t = "as" then do
          let (typeName, rest) ← name rest
          climb fuel least (.cast left typeName) rest
        else if t = "." then do
          let (name, rest) ← name rest
          climb fuel least (.attr left name) rest
        else if t = "[" then do
          let (key, rest) ← term fuel 0 rest
          let rest ← expect "]" rest
          climb fuel least (.index left key) rest
        else do
          let (args, rest) ← list fuel "," ")" rest
          climb fuel least (.apply left args) rest

/-- Reads expressions up to a closing sign, with a sign after the first and then commas and that
sign in turn. -/
def list : (fuel : Nat) → (sign close : String) → List String →
    Option (List Phrase × List String)
  | 0, _, _, _ => none
  | _ + 1, _, _, [] => none
  | fuel + 1, sign, close, t :: rest =>
    if t = close then some ([], rest)
    else do
      let (item, rest) ← term fuel 0 (t :: rest)
      let (items, rest) ← more fuel sign "," close rest
      return (item :: items, rest)

/-- Reads on behind an expression in a list. The list can close where a comma could stand. -/
def more : (fuel : Nat) → (sign other close : String) → List String →
    Option (List Phrase × List String)
  | 0, _, _, _, _ => none
  | _ + 1, _, _, _, [] => none
  | fuel + 1, sign, other, close, t :: rest =>
    if t = close ∧ sign = "," then some ([], rest)
    else if t = sign then do
      let (item, rest) ← term fuel 0 rest
      let (items, rest) ← more fuel other sign close rest
      return (item :: items, rest)
    else none

end

/-- What tokens say, if all of them are one expression. -/
def ofTokens? (ts : List String) : Option Phrase :=
  match term (2 * ts.length) 0 ts with
  | some (r, []) => some r
  | _ => none

example : ofTokens? ["a", "-", "(", "b", "-", "c", ")"] =
    some (.binary .sub (.leaf "a") (.binary .sub (.leaf "b") (.leaf "c"))) := rfl

/-! ## Strength of tokens -/

@[simp] theorem binaryOp?_symbol (op : BinaryOp) : binaryOp? op.symbol = some op := by
  cases op <;> decide

@[simp] theorem level_symbol (op : BinaryOp) : level op.symbol = op.strength := by
  rw [level, binaryOp?_symbol]

theorem strength_pos (op : BinaryOp) : 0 < op.strength := by
  cases op <;> decide

theorem level_cases (t : String) :
    (∃ op : BinaryOp, level t = op.strength) ∨ level t = castStrength ∨ level t = atomic ∨
      level t = 0 := by
  unfold level
  cases binaryOp? t with
  | some op => exact .inl ⟨op, rfl⟩
  | none => split_ifs <;> simp

theorem strength_lt_atomic (op : BinaryOp) : op.strength < atomic := by
  cases op <;> decide

theorem prefix_strength_le_atomic (op : UnaryOp) : op.strength ≤ atomic := by
  cases op <;> decide

/-- No token behind an expression is as strong as an operator before one. -/
theorem level_ne (t : String) (op : UnaryOp) : level t ≠ op.strength := by
  rcases level_cases t with ⟨b, h⟩ | h | h | h <;> rw [h]
  · cases b <;> cases op <;> decide
  all_goals cases op <;> decide

/-- Reading stops at what binds weaker than its place needs, and at the end. -/
theorem climb_stop {fuel least : Nat} {r : Phrase} {ts : List String} (hfuel : 0 < fuel)
    (h : ∀ t ∈ ts.head?, level t < least ∨ level t = 0) :
    climb fuel least r ts = some (r, ts) := by
  obtain ⟨fuel, rfl⟩ := Nat.exists_eq_succ_of_ne_zero (Nat.pos_iff_ne_zero.mp hfuel)
  cases ts with
  | nil => rw [climb]
  | cons t ts =>
    rw [climb, if_pos (h t rfl)]

/-- Tokens that are no signs begin no operator. -/
theorem prefixOp?_eq_none {t : String} (h : t ∉ reserved) : prefixOp? t = none := by
  unfold prefixOp?
  split
  iterate 3 exact absurd (by decide) h
  rfl

/-! ## Tokens of an expression -/

/-- Tokens of an expression that holds together so strong: wherever nothing stronger stands behind
them, reading goes on behind the whole expression. -/
def Opens (ts : List String) (r : Phrase) (strength : Nat) : Prop :=
  ∀ {least fuel : Nat} {rest : List String}, least ≤ strength →
    (∀ t ∈ rest.head?, level t ≤ strength) → 2 * (ts ++ rest).length ≤ fuel →
    ∃ fuel', 2 * rest.length < fuel' ∧ term fuel least (ts ++ rest) = climb fuel' least r rest

/-- Tokens of expressions and of the sign that closes their list. -/
def Lists (ts : List String) (rs : List Phrase) (sign close : String) : Prop :=
  ∀ {fuel : Nat} {rest : List String}, 2 * (ts ++ rest).length < fuel →
    list fuel sign close (ts ++ rest) = some (rs, rest)

/-- Tokens of further expressions, each behind its sign, and of the sign that closes their list. -/
structure Continues (ts : List String) (rs : List Phrase) (sign other close : String) : Prop where
  head : ∃ t us, ts = t :: us ∧ level t = 0
  read : ∀ {fuel : Nat} {rest : List String}, 2 * (ts ++ rest).length < fuel →
    more fuel sign other close (ts ++ rest) = some (rs, rest)

namespace Opens

variable {ts us : List String} {r l k : Phrase} {strength : Nat}

theorem mono (h : Opens ts r strength) {needed : Nat} (hle : needed ≤ strength) :
    Opens ts r needed :=
  fun hleast hlevel hfuel =>
    h (Nat.le_trans hleast hle) (fun t ht => Nat.le_trans (hlevel t ht) hle) hfuel

/-- An expression is read as a whole where something weaker stands behind it. -/
theorem stop (h : Opens ts r strength) {least fuel : Nat} {rest : List String}
    (hleast : least ≤ strength) (hrest : ∀ t ∈ rest.head?, level t < least ∨ level t = 0)
    (hfuel : 2 * (ts ++ rest).length ≤ fuel) : term fuel least (ts ++ rest) = some (r, rest) := by
  have hlevel : ∀ t ∈ rest.head?, level t ≤ strength := fun t ht => by
    rcases hrest t ht with h | h <;> omega
  obtain ⟨fuel', hfuel', hread⟩ := h hleast hlevel hfuel
  rw [hread, climb_stop (by omega) hrest]

/-- Between brackets everything is read. -/
theorem enclosed (h : Opens ts r strength) {fuel : Nat} {close : String} {rest : List String}
    (hclose : level close = 0) (hfuel : 2 * (ts ++ close :: rest).length ≤ fuel) :
    term fuel 0 (ts ++ close :: rest) = some (r, close :: rest) :=
  h.stop (Nat.zero_le _) (by simp [hclose]) hfuel

/-- An expression has a first token, which closes nothing. -/
theorem exists_cons (h : Opens ts r strength) :
    ∃ t us, ts = t :: us ∧ t ∉ [")", "]", "\x7d"] := by
  have hread : term (2 * (ts ++ []).length) 0 (ts ++ []) = some (r, []) :=
    h.stop (Nat.zero_le _) (by simp) (Nat.le_refl _)
  rw [List.append_nil] at hread
  cases ts with
  | nil => simp [term] at hread
  | cons t us =>
    refine ⟨t, us, rfl, fun ht => ?_⟩
    rw [show 2 * (t :: us).length = 2 * us.length + 1 + 1 from rfl, term] at hread
    simp only [List.mem_cons, List.not_mem_nil, or_false] at ht
    rcases ht with rfl | rfl | rfl <;> simp [prefixOp?, reserved] at hread

theorem leaf {t : String} (h : t ∉ reserved) : Opens [t] (ofLeaf t) atomic := by
  intro least fuel rest _ _ hfuel
  obtain ⟨fuel, rfl⟩ : ∃ f, fuel = f + 1 := ⟨fuel - 1, by simp at hfuel; omega⟩
  refine ⟨fuel, by simp at hfuel; omega, ?_⟩
  have hne {sign : String} (hs : sign ∈ reserved) : t ≠ sign := fun he => h (he ▸ hs)
  rw [List.singleton_append, term, prefixOp?_eq_none h]
  simp [hne (by decide : "(" ∈ reserved), hne (by decide : "[" ∈ reserved),
    hne (by decide : "\x7b" ∈ reserved), h]

theorem parenthesized (h : Opens ts r strength) : Opens ("(" :: ts ++ [")"]) r atomic := by
  intro least fuel rest _ _ hfuel
  simp only [List.length_append, List.length_cons, List.length_nil] at hfuel
  obtain ⟨fuel, rfl⟩ : ∃ f, fuel = f + 1 := ⟨fuel - 1, by omega⟩
  refine ⟨fuel, by omega, ?_⟩
  have hinner : term fuel 0 (ts ++ ")" :: rest) = some (r, ")" :: rest) :=
    h.enclosed (by decide) (by simp; omega)
  simp [term, prefixOp?, hinner, expect]

theorem prefixed (op : UnaryOp) {word : String} (hword : prefixOp? word = some op)
    (h : Opens ts r op.strength) : Opens (word :: ts) (.unary op r) op.strength := by
  intro least fuel rest hleast hlevel hfuel
  simp only [List.length_append, List.length_cons] at hfuel
  obtain ⟨fuel, rfl⟩ : ∃ f, fuel = f + 1 := ⟨fuel - 1, by omega⟩
  refine ⟨fuel, by omega, ?_⟩
  have hoperand : term fuel op.strength (ts ++ rest) = some (r, rest) :=
    h.stop (Nat.le_refl _) (fun t ht => .inl (Nat.lt_of_le_of_ne (hlevel t ht) (level_ne t op)))
      (by simp; omega)
  simp [term, hword, hleast, hoperand]

theorem binary (op : BinaryOp) (hl : Opens ts l op.strength) (hr : Opens us r (op.strength + 1)) :
    Opens (ts ++ op.symbol :: us) (.binary op l r) op.strength := by
  intro least fuel rest hleast hlevel hfuel
  rw [List.append_assoc] at hfuel ⊢
  obtain ⟨fuel, hbound, hread⟩ := hl hleast (by simp) hfuel
  simp only [List.cons_append, List.length_append, List.length_cons] at hbound
  obtain ⟨fuel, rfl⟩ : ∃ f, fuel = f + 1 := ⟨fuel - 1, by omega⟩
  refine ⟨fuel, by omega, ?_⟩
  have hright : term fuel (op.strength + 1) (us ++ rest) = some (r, rest) :=
    hr.stop (Nat.le_refl _) (fun t ht => .inl (Nat.lt_succ_of_le (hlevel t ht))) (by simp; omega)
  have hpos := strength_pos op
  rw [hread, List.cons_append, climb, if_neg (by simp; omega)]
  simp [hright]

theorem cast (h : Opens ts r castStrength) {typeName : String} (hname : typeName ∉ reserved) :
    Opens (ts ++ ["as", typeName]) (.cast r typeName) castStrength := by
  intro least fuel rest hleast hlevel hfuel
  rw [List.append_assoc] at hfuel ⊢
  obtain ⟨fuel, hbound, hread⟩ := h hleast (by simp; decide) hfuel
  simp only [List.cons_append, List.length_cons, List.nil_append] at hbound
  obtain ⟨fuel, rfl⟩ : ∃ f, fuel = f + 1 := ⟨fuel - 1, by omega⟩
  refine ⟨fuel, by omega, ?_⟩
  have hlevel : level "as" = castStrength := by decide
  have hop : binaryOp? "as" = none := by decide
  have hpos : castStrength ≠ 0 := by decide
  rw [hread, List.cons_append, climb, if_neg (by omega)]
  simp [hop, name, hname]

section Behind

/-! What stands behind an expression that needs no parentheses. -/

variable (h : Opens ts l atomic)
include h

theorem attr {name : String} (hname : name ∉ reserved) :
    Opens (ts ++ [".", name]) (.attr l name) atomic := by
  intro least fuel rest hleast hlevel hfuel
  rw [List.append_assoc] at hfuel ⊢
  obtain ⟨fuel, hbound, hread⟩ := h hleast (by simp; decide) hfuel
  simp only [List.cons_append, List.length_cons, List.nil_append] at hbound
  obtain ⟨fuel, rfl⟩ : ∃ f, fuel = f + 1 := ⟨fuel - 1, by omega⟩
  refine ⟨fuel, by omega, ?_⟩
  have hlevel : level "." = atomic := by decide
  have hop : binaryOp? "." = none := by decide
  have hpos : atomic ≠ 0 := by decide
  rw [hread, List.cons_append, climb, if_neg (by omega)]
  simp [hop, Phrase.name, hname]

theorem index (hk : Opens us k 0) : Opens (ts ++ "[" :: us ++ ["]"]) (.index l k) atomic := by
  intro least fuel rest hleast hlevel hfuel
  rw [List.append_assoc, List.append_assoc] at hfuel ⊢
  obtain ⟨fuel, hbound, hread⟩ := h hleast (by simp; decide) hfuel
  simp only [List.cons_append, List.length_append, List.length_cons, List.nil_append] at hbound
  obtain ⟨fuel, rfl⟩ : ∃ f, fuel = f + 1 := ⟨fuel - 1, by omega⟩
  refine ⟨fuel, by omega, ?_⟩
  have hkey : term fuel 0 (us ++ "]" :: rest) = some (k, "]" :: rest) :=
    hk.enclosed (by decide) (by simp; omega)
  have hlevel : level "[" = atomic := by decide
  have hop : binaryOp? "[" = none := by decide
  have hpos : atomic ≠ 0 := by decide
  rw [hread, List.cons_append, climb, if_neg (by omega)]
  simp [hop, hkey, expect]

theorem apply {rs : List Phrase} (hargs : Lists us rs "," ")") :
    Opens (ts ++ "(" :: us) (.apply l rs) atomic := by
  intro least fuel rest hleast hlevel hfuel
  rw [List.append_assoc] at hfuel ⊢
  obtain ⟨fuel, hbound, hread⟩ := h hleast (by simp; decide) hfuel
  simp only [List.cons_append, List.length_append, List.length_cons] at hbound
  obtain ⟨fuel, rfl⟩ : ∃ f, fuel = f + 1 := ⟨fuel - 1, by omega⟩
  refine ⟨fuel, by omega, ?_⟩
  have hlevel : level "(" = atomic := by decide
  have hop : binaryOp? "(" = none := by decide
  have hpos : atomic ≠ 0 := by decide
  have hlist : list fuel "," ")" (us ++ rest) = some (rs, rest) := hargs (by simp; omega)
  rw [hread, List.cons_append, climb, if_neg (by omega)]
  simp [hop, hlist]

end Behind

theorem array {rs : List Phrase} (h : Lists ts rs "," "]") :
    Opens ("[" :: ts) (.array rs) atomic := by
  intro least fuel rest _ _ hfuel
  simp only [List.length_append, List.length_cons] at hfuel
  obtain ⟨fuel, rfl⟩ : ∃ f, fuel = f + 1 := ⟨fuel - 1, by omega⟩
  refine ⟨fuel, by omega, ?_⟩
  have hlist : list fuel "," "]" (ts ++ rest) = some (rs, rest) := h (by simp; omega)
  simp [term, prefixOp?, hlist]

theorem dictionary {rs : List Phrase} (h : Lists ts rs ":" "\x7d") :
    Opens ("\x7b" :: ts) (.dictionary rs) atomic := by
  intro least fuel rest _ _ hfuel
  simp only [List.length_append, List.length_cons] at hfuel
  obtain ⟨fuel, rfl⟩ : ∃ f, fuel = f + 1 := ⟨fuel - 1, by omega⟩
  refine ⟨fuel, by omega, ?_⟩
  have hlist : list fuel ":" "\x7d" (ts ++ rest) = some (rs, rest) := h (by simp; omega)
  simp [term, prefixOp?, hlist]

/-- Tokens of a whole expression are read as it. -/
theorem ofTokens? (h : Opens ts r strength) : Phrase.ofTokens? ts = some r := by
  have hread : term (2 * (ts ++ []).length) 0 (ts ++ []) = some (r, []) :=
    h.stop (Nat.zero_le _) (by simp) (Nat.le_refl _)
  rw [List.append_nil] at hread
  rw [Phrase.ofTokens?, hread]

end Opens

/-! ## Tokens of lists -/

theorem Lists.nil (sign close : String) : Lists [close] [] sign close := by
  intro fuel rest hfuel
  obtain ⟨fuel, rfl⟩ : ∃ f, fuel = f + 1 := ⟨fuel - 1, by omega⟩
  simp [list]

theorem Lists.cons {ts us : List String} {r : Phrase} {rs : List Phrase} {sign close : String}
    (hclose : close ∈ [")", "]", "\x7d"]) (h : Opens ts r 0)
    (hrest : Continues us rs sign "," close) : Lists (ts ++ us) (r :: rs) sign close := by
  intro fuel rest hfuel
  obtain ⟨t, ts', hts, hne⟩ := h.exists_cons
  obtain ⟨sign', us', hus, hlevel⟩ := hrest.head
  obtain ⟨fuel, rfl⟩ : ∃ f, fuel = f + 1 := ⟨fuel - 1, by omega⟩
  rw [List.append_assoc] at hfuel ⊢
  have hitem : term fuel 0 (ts ++ (us ++ rest)) = some (r, us ++ rest) := by
    rw [hus] at hfuel ⊢
    exact h.enclosed hlevel (Nat.lt_succ_iff.mp hfuel)
  have hmore : more fuel sign "," close (us ++ rest) = some (rs, rest) :=
    hrest.read (by simp [hts] at hfuel ⊢; omega)
  have hopen : t ≠ close := fun he => hne (he ▸ hclose)
  rw [hts, List.cons_append] at hitem
  rw [hts, List.cons_append, list, if_neg hopen, hitem]
  simp [hmore]

theorem Continues.nil (other : String) {close : String} (hclose : level close = 0) :
    Continues [close] [] "," other close := by
  refine ⟨⟨close, [], rfl, hclose⟩, fun {fuel rest} hfuel => ?_⟩
  obtain ⟨fuel, rfl⟩ : ∃ f, fuel = f + 1 := ⟨fuel - 1, by omega⟩
  simp [more]

theorem Continues.cons {ts us : List String} {r : Phrase} {rs : List Phrase}
    {sign other close : String} (hsign : sign ≠ close) (hlevel : level sign = 0) (h : Opens ts r 0)
    (hrest : Continues us rs other sign close) :
    Continues (sign :: ts ++ us) (r :: rs) sign other close := by
  refine ⟨⟨sign, ts ++ us, rfl, hlevel⟩, fun {fuel rest} hfuel => ?_⟩
  obtain ⟨sign', us', hus, hlevel'⟩ := hrest.head
  obtain ⟨fuel, rfl⟩ : ∃ f, fuel = f + 1 := ⟨fuel - 1, by omega⟩
  simp only [List.cons_append, List.append_assoc, List.length_cons] at hfuel
  have hitem : term fuel 0 (ts ++ (us ++ rest)) = some (r, us ++ rest) := by
    rw [hus] at hfuel ⊢
    exact h.enclosed hlevel' (by simp at hfuel ⊢; omega)
  have hmore : more fuel other sign close (us ++ rest) = some (rs, rest) :=
    hrest.read (by simp at hfuel ⊢; omega)
  rw [List.cons_append, List.cons_append, List.append_assoc, more,
    if_neg fun he => hsign he.1, if_pos rfl, hitem]
  simp [hmore]

end Phrase

/-! ## Spelling -/

/-- Whether a character is a sign that runs into another one. -/
def isSign (c : Char) : Bool :=
  c == '-' || c == '~'

/-- Whether a character right behind another looks like more of the same token. -/
def runsOn (c d : Char) : Bool :=
  continuesIdentifier c && continuesIdentifier d || isSign c && isSign d

/-- Whether characters can stand right behind others without running on. -/
def Apart (cs ds : List Char) : Prop :=
  ∀ c ∈ cs.getLast?, ∀ d ∈ ds.head?, runsOn c d = false

/-- Characters that are tokens, one after the other, with or without a blank between two. -/
inductive Spells : List String → List Char → Prop where
  | nil : Spells [] []
  | blank {t : String} {ts : List String} {cs : List Char} : t ≠ "" → ts ≠ [] → Spells ts cs →
    Spells (t :: ts) (t.toList ++ ' ' :: cs)
  | close {t : String} {ts : List String} {cs : List Char} : t ≠ "" → Apart t.toList cs →
    Spells ts cs → Spells (t :: ts) (t.toList ++ cs)

/-- Whether a character runs into no other. -/
def standsAlone (c : Char) : Bool :=
  !continuesIdentifier c && !isSign c

theorem runsOn_of_standsAlone {c d : Char} (h : standsAlone c = true ∨ standsAlone d = true) :
    runsOn c d = false := by
  simp only [standsAlone, Bool.and_eq_true, Bool.not_eq_true'] at h
  rcases h with ⟨h1, h2⟩ | ⟨h1, h2⟩ <;> simp [runsOn, h1, h2]

namespace Apart

variable {as cs ds : List Char}

theorem of_last (h : cs.getLast?.all standsAlone = true) : Apart cs ds :=
  fun c hc _ _ => runsOn_of_standsAlone (.inl (by simpa [Option.mem_def.mp hc] using h))

theorem of_head (h : ds.head?.all standsAlone = true) : Apart cs ds :=
  fun _ _ d hd => runsOn_of_standsAlone (.inr (by simpa [Option.mem_def.mp hd] using h))

theorem of_append (h : Apart (as ++ cs) ds) : Apart cs ds :=
  fun c hc => h c (by rw [List.getLast?_append, Option.mem_def.mp hc]; rfl)

end Apart

namespace Spells

variable {ts us : List String} {cs ds : List Char}

theorem single {t : String} (h : t ≠ "") : Spells [t] t.toList := by
  simpa using close h (.of_head rfl) nil

/-- A sign before tokens. -/
theorem sign {t : String} (ht : t ≠ "") (halone : t.toList.getLast?.all standsAlone = true)
    (h : Spells ts cs) : Spells (t :: ts) (t.toList ++ cs) :=
  close ht (.of_last halone) h

theorem append (h : Spells ts cs) (h' : Spells us ds) (hapart : Apart cs ds) :
    Spells (ts ++ us) (cs ++ ds) := by
  induction h with
  | nil => exact h'
  | @blank t ts cs ht hts _ ih =>
    rw [List.append_cons] at hapart
    simpa using blank ht (by simp [hts]) (ih hapart.of_append)
  | @close t ts cs ht hclose _ ih =>
    have hmeets : Apart t.toList (cs ++ ds) := by
      cases cs with
      | nil => simpa using hapart
      | cons c cs => exact fun a ha d hd => hclose a ha d hd
    simpa using close ht hmeets (ih hapart.of_append)

theorem ne_nil (h : Spells ts cs) (hts : ts ≠ []) : cs ≠ [] := by
  cases h with
  | nil => exact absurd rfl hts
  | blank ht _ _ => simp
  | close ht _ _ => simp [ht]

/-- Tokens with a blank between them and others. -/
theorem spaced (h : Spells ts cs) (hts : ts ≠ []) (h' : Spells us ds) (hus : us ≠ []) :
    Spells (ts ++ us) (cs ++ ' ' :: ds) := by
  induction h with
  | nil => exact absurd rfl hts
  | @blank t ts cs ht hne _ ih => simpa using blank ht (by simp [hne]) (ih hne)
  | @close t ts cs ht hclose hcs ih =>
    rcases eq_or_ne ts [] with rfl | hne
    · cases hcs
      simpa using blank ht hus h'
    · obtain ⟨c, cs, rfl⟩ := List.exists_cons_of_ne_nil (hcs.ne_nil hne)
      have hmeets : Apart t.toList (c :: cs ++ ' ' :: ds) := fun a ha d hd => hclose a ha d hd
      simpa using close ht hmeets (ih hne)

end Spells

/-- Brackets, points, commas and colons. -/
def punctuation : List String :=
  ["(", ")", "[", "]", "\x7b", "\x7d", ",", ":", "."]

/-- A sign that runs into no other token. -/
structure IsPunctuation (t : String) : Prop where
  reserved : t ∈ Phrase.reserved
  ne : t ≠ ""
  first : t.toList.head?.all standsAlone = true
  last : t.toList.getLast?.all standsAlone = true

theorem isPunctuation_of_mem {t : String} (h : t ∈ punctuation) : IsPunctuation t := by
  have hall : ∀ t ∈ punctuation, t ∈ Phrase.reserved ∧ t ≠ "" ∧
      t.toList.head?.all standsAlone = true ∧ t.toList.getLast?.all standsAlone = true := by
    decide
  obtain ⟨h1, h2, h3, h4⟩ := hall t h
  exact ⟨h1, h2, h3, h4⟩

namespace IsPunctuation

variable {t : String} {ts : List String} {cs : List Char}

/-- Punctuation before tokens. -/
theorem before (h : IsPunctuation t) (hts : Spells ts cs) : Spells (t :: ts) (t.toList ++ cs) :=
  hts.sign h.ne h.last

/-- Punctuation behind tokens. -/
theorem behind (h : IsPunctuation t) (hts : Spells ts cs) : Spells (ts ++ [t]) (cs ++ t.toList) :=
  hts.append (.single h.ne) (.of_head h.first)

end IsPunctuation

end Unscript.Source
