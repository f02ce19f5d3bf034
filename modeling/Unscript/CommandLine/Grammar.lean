import Unscript.Number.Numeral

/-!
# The grammar of a command line

A command line is a row of words: flags, the values of flags, and operands. A flag has a long name,
which may be shortened as long as no other flag is meant, and perhaps a letter; letters can be
joined after one dash. A value is the next word, or follows an equals sign, or follows the letter.
Two dashes alone end the flags. A negative number is no flag, nor is a word with a space in it that
names none.

* `Grammar.words` tells what every word is.
* `Grammar.read` reads all words: the flags in their order and the operands, which stand together.
-/

namespace Unscript.CommandLine

/-- Why a command line is not carried out: help or the version is asked for, or it is wrong. -/
inductive Usage where
  | help
  | version
  | wrong
  deriving DecidableEq, Repr

/-- What the value of a flag must be. -/
inductive ValueKind where
  | text
  | integer
  | number
  deriving DecidableEq, Repr

/-- Whether a word is a value of a kind. -/
def ValueKind.accepts (kind : ValueKind) (s : String) : Bool :=
  match kind with
  | .text => true
  | .integer => (Text.readInt? 10 s).isSome
  | .number => (Number.Double.read? s).isSome

/-- What a flag does. -/
inductive FlagRole where
  | switch
  | value (kind : ValueKind)
  | usage (u : Usage)
  deriving DecidableEq, Repr

/-- A flag: its long name and its letter. -/
structure Flag where
  name : String
  letter : Option Char := none
  role : FlagRole := .switch
  deriving DecidableEq, Repr

namespace Flag

/-- The ways to spell a flag in full. -/
def spellings (f : Flag) : List String :=
  ("--" ++ f.name) :: (f.letter.map fun c => String.ofList ['-', c]).toList

/-- Whether a flag needs a value. -/
def takesValue (f : Flag) : Bool :=
  f.role matches .value _

end Flag

/-- Which operands a command takes: none, exactly one, at least one, or the name of a further
command with all words after it. -/
inductive Arity where
  | none
  | one
  | some
  | command
  deriving DecidableEq, Repr

/-- The flags and the operands of a command. -/
structure Grammar where
  flags : List Flag
  arity : Arity

/-- What a word is. What is attached to a flag is the equals sign and the value after its name, or
all that follows its letter. -/
inductive WordRole where
  | plain
  | separator
  | flag (f : Flag) (attached : List Char)
  | unknown
  deriving DecidableEq, Repr

/-- A word and what it is. -/
structure Word where
  text : String
  role : WordRole
  deriving DecidableEq, Repr

namespace Grammar

/-! ## Words -/

/-- The flag with a spelling. -/
def spelled? (g : Grammar) (s : String) : Option Flag :=
  g.flags.find? fun f => f.spellings.contains s

/-- The flag with a letter. -/
def letter? (g : Grammar) (c : Char) : Option Flag :=
  g.flags.find? (·.letter == some c)

/-- The flags that a word with a dash may mean: those whose long name it begins, or the one whose
letter follows the dash. -/
def meant (g : Grammar) (cs : List Char) : List WordRole :=
  match cs with
  | '-' :: '-' :: r =>
    let shortened := r.takeWhile (· ≠ '=')
    (g.flags.filter fun f => shortened.isPrefixOf f.name.toList).map fun f =>
      .flag f (r.dropWhile (· ≠ '='))
  | '-' :: c :: r => ((g.letter? c).map fun f => WordRole.flag f r).toList
  | _ => []

/-- Whether a word is a negative number, with a point in it or not; a line break may follow. -/
def isNegative (cs : List Char) : Bool :=
  let cs := if cs.getLast? = some '\n' then cs.dropLast else cs
  let isDigit (c : Char) := (Text.decimalDigit? c).isSome
  match cs with
  | '-' :: r =>
    match r.dropWhile isDigit with
    | [] => !r.isEmpty
    | '.' :: f => !f.isEmpty && f.all isDigit
    | _ => false
  | _ => false

/-- What a word is that stands before the two dashes that end the flags. -/
def roleOf (g : Grammar) (s : String) : Except Usage WordRole :=
  match s.toList with
  | '-' :: c :: r =>
    let cs := '-' :: c :: r
    let named := g.spelled? (String.ofList (cs.takeWhile (· ≠ '=')))
    match named with
    | some f => .ok (.flag f (cs.dropWhile (· ≠ '=')))
    | none =>
      match g.meant cs with
      | [] => .ok (if isNegative cs || cs.contains ' ' then .plain else .unknown)
      | [role] => .ok role
      | _ => .error .wrong
  | _ => .ok .plain

/-- What all words are; a word that may mean several flags is wrong. -/
def words (g : Grammar) : List String → Except Usage (List Word)
  | [] => .ok []
  | s :: rest =>
    if s = "--" then .ok (⟨s, .separator⟩ :: rest.map (⟨·, .plain⟩))
    else do
      let role ← g.roleOf s
      let rest ← g.words rest
      return ⟨s, role⟩ :: rest

/-! ## Flags of one word -/

/-- What a word says: flags with their values, perhaps a last flag whose value is the next word,
and whether letters were left over that name no flag. -/
structure Bundle where
  given : List (Flag × String) := []
  waiting : Option Flag := none
  leftover : Bool := false

/-- What a flag with something attached says. -/
def bundle (g : Grammar) : Flag → List Char → Except Usage Bundle
  | f, [] => .ok (if f.takesValue then { waiting := some f } else { given := [(f, "")] })
  | f, c :: r =>
    if f.takesValue then .ok { given := [(f, String.ofList (if c = '=' then r else c :: r))] }
    else if c = '=' || c = '-' then .error .wrong
    else
      match g.letter? c with
      | none => .ok { given := [(f, "")], leftover := true }
      | some next => do
        let b ← g.bundle next r
        return { b with given := (f, "") :: b.given }

/-! ## Command lines -/

/-- How far the operands have been read: none yet, some that may go on, or all. -/
inductive Progress where
  | before
  | within
  | after
  deriving DecidableEq, Repr

/-- What was read: the flags with their values in their order, the operands, and whether words were
left over that mean nothing. -/
structure Parsed where
  given : List (String × String) := []
  operands : List String := []
  progress : Progress := .before
  leftover : Bool := false

namespace Parsed

/-- A flag ends the operands if they have begun. -/
def interrupted (p : Parsed) : Parsed :=
  { p with progress := if p.progress = .within then .after else p.progress }

/-- Takes a flag: one that asks for help or the version ends the reading. -/
def take (p : Parsed) (f : Flag) (value : String) : Except Usage Parsed :=
  match f.role with
  | .usage u => .error u
  | .switch => .ok { p with given := p.given ++ [(f.name, value)] }
  | .value kind =>
    if kind.accepts value then .ok { p with given := p.given ++ [(f.name, value)] }
    else .error .wrong

/-- Takes flags in their order. -/
def takeAll (p : Parsed) (given : List (Flag × String)) : Except Usage Parsed :=
  given.foldlM (fun p x => p.take x.1 x.2) p

/-- Whether a flag was given. -/
def has (p : Parsed) (name : String) : Bool :=
  p.given.any (·.1 == name)

/-- The value given last for a flag. -/
def value? (p : Parsed) (name : String) : Option String :=
  p.given.reverse.lookup name

/-- The value given last for a flag, unless it is empty. -/
def nonEmpty? (p : Parsed) (name : String) : Option String :=
  (p.value? name).filter fun s => !s.isEmpty

end Parsed

/-- Reads words one after another. -/
def readWords (g : Grammar) : Parsed → List Word → Except Usage Parsed
  | p, [] => .ok p
  | p, ⟨text, .plain⟩ :: rest =>
    match g.arity, p.progress with
    | .command, .before =>
      .ok { p with operands := text :: rest.map (·.text), progress := .after }
    | .one, .before | .some, .before | .some, .within =>
      g.readWords { p with operands := p.operands ++ [text], progress := .within } rest
    | _, _ => g.readWords { p with leftover := true } rest
  | p, ⟨_, .separator⟩ :: rest =>
    match g.arity, p.progress with
    | .command, _ => .error .wrong
    | .one, .before | .some, .before | .one, .within | .some, .within => g.readWords p rest
    | _, _ => g.readWords { p with leftover := true } rest
  | p, ⟨_, .unknown⟩ :: rest => g.readWords { p.interrupted with leftover := true } rest
  | p, ⟨_, .flag f attached⟩ :: rest =>
    match g.bundle f attached with
    | .error u => .error u
    | .ok b =>
      match b.waiting, rest with
      | none, rest =>
        match p.interrupted.takeAll b.given with
        | .error u => .error u
        | .ok p => g.readWords { p with leftover := p.leftover || b.leftover } rest
      | some last, ⟨text, .plain⟩ :: rest =>
        match p.interrupted.takeAll (b.given ++ [(last, text)]) with
        | .error u => .error u
        | .ok p => g.readWords p rest
      | some _, _ => .error .wrong

/-- Reads a command line. Operands must not be missing. -/
def read (g : Grammar) (line : List String) : Except Usage Parsed := do
  let words ← g.words line
  let p ← g.readWords {} words
  if p.operands.isEmpty && g.arity != .none then throw .wrong
  return p

end Grammar

end Unscript.CommandLine
