import Unscript.CommandLine.Grammar
import Unscript.Json.Value

/-!
# Invocations

The program has four commands: it recovers scripts, tells their dialects, lists their instructions,
and shows the dialects it knows. Flags in front of the command are for all of them.

* `Invocation.read` reads a command line, or tells why there is nothing to carry out.
-/

namespace Unscript.CommandLine

/-- What `decompile` is asked for. -/
structure DecompileRequest where
  inputs : List String
  output : Option String := none
  toStdout : Bool := false
  dialect : Option String := none
  report : Option String := none
  asJson : Bool := false
  deriving DecidableEq, Repr

/-- A command with what it is asked for. -/
inductive Command where
  | decompile (r : DecompileRequest)
  | detect (inputs : List String) (asJson : Bool)
  | disassemble (input : String) (dialect : Option String) (asJson : Bool)
  | dialects (asJson tables : Bool)
  deriving DecidableEq, Repr

/-- A command line that can be carried out. `changes` are the settings that it gives beside the
file of settings, and `engine` is the engine for which encrypted scripts were made. -/
structure Invocation where
  verbose : Bool := false
  debugLog : Option String := none
  settings : Option String := none
  changes : List (String × Json) := []
  key : Option String := none
  engine : Int := 3
  command : Command

namespace Invocation

/-! ## Grammars -/

/-- The flag that asks for help. -/
def helpFlag : Flag := ⟨"help", some 'h', .usage .help⟩

/-- A flag with a text. -/
def textFlag (name : String) (letter : Option Char := none) : Flag :=
  ⟨name, letter, .value .text⟩

/-- The flags in front of the command. -/
def outer : Grammar where
  arity := .command
  flags := [helpFlag, ⟨"version", none, .usage .version⟩, ⟨"verbose", some 'v', .switch⟩,
    textFlag "debug-log"]

/-- The flags about encrypted inputs. -/
def accessFlags : List Flag :=
  [textFlag "key", ⟨"engine-major", none, .value .integer⟩]

/-- The flags about the search for dialects. -/
def detectionFlags : List Flag :=
  [⟨"heuristic", none, .switch⟩, textFlag "prefer", textFlag "config"]

/-- The grammar of `decompile`. -/
def decompileGrammar : Grammar where
  arity := .some
  flags := [helpFlag, textFlag "output" (some 'o'), ⟨"stdout", none, .switch⟩,
    textFlag "bytecode", ⟨"jobs", none, .value .integer⟩,
    ⟨"match-min-cases", none, .value .integer⟩, ⟨"raw-block-limit", none, .value .number⟩,
    ⟨"provenance", none, .switch⟩, textFlag "report", ⟨"json", none, .switch⟩] ++
    detectionFlags ++ accessFlags

/-- The grammar of `detect`. -/
def detectGrammar : Grammar where
  arity := .some
  flags := [helpFlag, ⟨"json", none, .switch⟩] ++ detectionFlags ++ accessFlags

/-- The grammar of `disasm`. -/
def disassembleGrammar : Grammar where
  arity := .one
  flags := [helpFlag, textFlag "bytecode", ⟨"json", none, .switch⟩] ++ accessFlags

/-- The grammar of `versions`. -/
def dialectsGrammar : Grammar where
  arity := .none
  flags := [helpFlag, ⟨"json", none, .switch⟩, ⟨"tables", none, .switch⟩]

/-! ## Reading -/

/-- The integer given for a flag. -/
def integer? (p : Grammar.Parsed) (name : String) : Option Int :=
  (p.value? name).bind (Text.readInt? 10)

/-- A setting that a flag switches on. -/
def switched (p : Grammar.Parsed) (flag : String) : Json :=
  if p.has flag then .bool true else .null

/-- The settings that flags give; those that are not given are null. -/
def changesOf (p : Grammar.Parsed) : List (String × Json) :=
  [("heuristic", switched p "heuristic"),
    ("prefer", Json.ofOption .text (p.value? "prefer")),
    ("jobs", Json.ofOption .int (integer? p "jobs")),
    ("match_min_cases", Json.ofOption .int (integer? p "match-min-cases")),
    ("raw_block_limit",
      Json.ofOption .real ((p.value? "raw-block-limit").bind Number.Double.read?)),
    ("provenance_header", switched p "provenance")]

/-- The grammar of a command, and the command that the words after its name make. -/
def command? : String → Option (Grammar × (Grammar.Parsed → Command))
  | "decompile" => some (decompileGrammar, fun p => .decompile {
      inputs := p.operands
      output := p.nonEmpty? "output"
      toStdout := p.has "stdout"
      dialect := p.nonEmpty? "bytecode"
      report := p.nonEmpty? "report"
      asJson := p.has "json" })
  | "detect" => some (detectGrammar, fun p => .detect p.operands (p.has "json"))
  | "disasm" => some (disassembleGrammar, fun p =>
      .disassemble (p.operands.head?.getD "") (p.nonEmpty? "bytecode") (p.has "json"))
  | "versions" => some (dialectsGrammar, fun p => .dialects (p.has "json") (p.has "tables"))
  | _ => none

/-- Reads a command line. Words in front of the command that mean nothing are noticed only after
the command was read, which may ask for help. -/
def read (line : List String) : Except Usage Invocation := do
  let front ← outer.read line
  match front.operands with
  | [] => throw .wrong
  | name :: words =>
    match command? name with
    | none => throw .wrong
    | some (g, make) =>
      let p ← g.read words
      if front.leftover || p.leftover then throw .wrong
      return {
        verbose := front.has "verbose"
        debugLog := front.nonEmpty? "debug-log"
        settings := p.value? "config"
        changes := changesOf p
        key := p.nonEmpty? "key"
        engine := (integer? p "engine-major").getD 3
        command := make p }

/-- The words that name files to be read, or a place that may be a directory. -/
def named (i : Invocation) : List String :=
  i.settings.toList ++
    match i.command with
    | .decompile r => r.inputs ++ r.output.toList
    | .detect inputs _ => inputs
    | .disassemble input _ _ => [input]
    | .dialects _ _ => []

end Invocation

end Unscript.CommandLine
