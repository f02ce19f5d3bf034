import Unscript.Registry.Resolve

/-!
# The registry of known dialects

The four eras of the encoding and every commit of the engine that changed the bytecode, oldest
first.

* `standardSource` is the data and `standard` the registry resolved from it.
-/

namespace Unscript.Registry

/-- An operation without operands that goes to the next instruction. -/
def plain (mnemonic : String) (pops pushes : Int) : OperationEntry :=
  ⟨mnemonic, [], .int pops, .int pushes, [], "next"⟩

/-- An operation with operands. -/
def withOperands (mnemonic : String) (operands : List String) (pops pushes : Int)
    (variadic : List (String × Int)) (transfer : String) : OperationEntry :=
  ⟨mnemonic, operands, .int pops, .int pushes, variadic, transfer⟩

/-- The operations. -/
def standardOperations : List OperationEntry := [
  plain "NOP" 0 0,
  withOperands "LOAD_CONST" ["const"] 0 1 [] "next",
  withOperands "LOAD_LOCAL" ["local"] 0 1 [] "next",
  withOperands "STORE_LOCAL" ["local"] 1 0 [] "next",
  plain "LOAD_SELF" 0 1,
  withOperands "LOAD_MEMBER" ["name"] 0 1 [] "next",
  withOperands "STORE_MEMBER" ["name"] 1 0 [] "next",
  withOperands "LOAD_GLOBAL" ["name"] 0 1 [] "next",
  withOperands "GET_ATTR" ["name"] 1 1 [] "next",
  withOperands "SET_ATTR" ["name"] 2 0 [] "next",
  plain "GET_INDEX" 2 1,
  plain "SET_INDEX" 3 0,
  plain "ADD" 2 1,
  plain "SUB" 2 1,
  plain "MUL" 2 1,
  plain "DIV" 2 1,
  plain "MOD" 2 1,
  plain "BIT_AND" 2 1,
  plain "BIT_OR" 2 1,
  plain "BIT_XOR" 2 1,
  plain "SHL" 2 1,
  plain "SHR" 2 1,
  plain "EQ" 2 1,
  plain "NE" 2 1,
  plain "LT" 2 1,
  plain "LE" 2 1,
  plain "GT" 2 1,
  plain "GE" 2 1,
  plain "AND" 2 1,
  plain "OR" 2 1,
  plain "IN" 2 1,
  plain "IS" 2 1,
  plain "NEG" 1 1,
  plain "NOT" 1 1,
  plain "BIT_NOT" 1 1,
  withOperands "AS" ["name"] 1 1 [] "next",
  withOperands "CALL_BUILTIN" ["builtin", "argc"] 0 1 [("argc", 1)] "next",
  withOperands "CALL_METHOD" ["name", "argc"] 1 1 [("argc", 1)] "next",
  withOperands "CALL_SELF" ["name", "argc"] 0 1 [("argc", 1)] "next",
  withOperands "MAKE_ARRAY" ["count"] 0 1 [("count", 1)] "next",
  withOperands "MAKE_DICT" ["count"] 0 1 [("count", 2)] "next",
  plain "POP" 1 0,
  withOperands "JUMP" ["jump"] 0 0 [] "jump",
  withOperands "JUMP_IF_TRUE" ["jump"] 1 0 [] "branch_true",
  withOperands "JUMP_IF_FALSE" ["jump"] 1 0 [] "branch_false",
  withOperands "ITER_BEGIN" ["local", "local", "jump"] 1 0 [] "iter_begin",
  withOperands "ITER_NEXT" ["local", "local", "jump"] 0 0 [] "iter_next",
  withOperands "RETURN" [] 1 0 [] "return",
  withOperands "YIELD" ["argc"] 0 1 [("argc", 1)] "next",
  plain "ASSERT" 1 0,
  plain "BREAKPOINT" 0 0]

/-- The features. -/
def standardFeatures : List String := [
  "for_in", "inner_class", "yield", "setget", "signal", "onready", "breakpoint", "const_pi",
  "const_tau", "const_inf_nan", "enum", "dollar", "match", "wildcard", "is_operator",
  "class_name", "as_cast", "remote_keywords", "legacy_switch_tokens", "typed_for", "lambda"]

/-- The widths of an era whose opcodes and argument counts take one byte each. -/
def narrowWidths (constant name slot builtin count jump : Int) : List (String × Count) := [
  ("opcode", .int 1), ("const", .int constant), ("name", .int name), ("local", .int slot),
  ("builtin", .int builtin), ("argc", .int 1), ("count", .int count), ("jump", .int jump)]

/-- The tags of an era: the first five kinds are numbered from zero. -/
def numberedTags (resource subscript : Int) : List (String × Int) := [
  ("nil", 0), ("bool", 1), ("int", 2), ("float", 3), ("string", 4), ("resource", resource),
  ("subscript", subscript)]

/-- The encoding of the first engine: no line table and short jumps. -/
def firstEra : EraEntry where
  name := "gd1"
  engineMajor := .int 1
  variantMajor := .int 2
  lineWidth := .int 0
  opcodes := some ([
    "NOP", "LOAD_CONST", "LOAD_LOCAL", "STORE_LOCAL", "LOAD_SELF", "LOAD_MEMBER",
    "STORE_MEMBER", "LOAD_GLOBAL", "GET_ATTR", "SET_ATTR", "GET_INDEX", "SET_INDEX", "ADD",
    "SUB", "MUL", "DIV", "MOD", "NEG", "NOT", "BIT_NOT", "BIT_AND", "BIT_OR", "BIT_XOR", "SHL",
    "SHR", "EQ", "NE", "LT", "LE", "GT", "GE", "AND", "OR", "IN", "CALL_BUILTIN",
    "CALL_METHOD", "CALL_SELF", "MAKE_ARRAY", "MAKE_DICT", "JUMP", "JUMP_IF_TRUE",
    "JUMP_IF_FALSE", "ITER_BEGIN", "ITER_NEXT", "RETURN", "POP", "ASSERT", "YIELD"].map some)
  widths := some (narrowWidths 2 2 1 1 2 2)
  constants := some [("int_width", .int 4), ("float_width", .int 4)]
  tags := some (numberedTags 5 6)
  builtins := [
    "sin", "cos", "tan", "sinh", "cosh", "tanh", "asin", "acos", "atan", "atan2", "sqrt",
    "fmod", "fposmod", "floor", "ceil", "round", "abs", "sign", "pow", "log", "exp", "isnan",
    "isinf", "ease", "decimals", "stepify", "lerp", "dectime", "randomize", "randi", "randf",
    "rand_range", "rand_seed", "deg2rad", "rad2deg", "linear2db", "db2linear", "max", "min",
    "clamp", "nearest_po2", "weakref", "convert", "typeof", "str", "print", "printt",
    "printerr", "printraw", "range", "inst2dict", "dict2inst", "print_stack"]

/-- The encoding of the second engine. -/
def secondEra : EraEntry where
  name := "gd2"
  engineMajor := .int 2
  variantMajor := .int 2
  lineWidth := .int 2
  opcodes := some ([
    "NOP", "LOAD_CONST", "LOAD_LOCAL", "STORE_LOCAL", "LOAD_SELF", "LOAD_GLOBAL",
    "LOAD_MEMBER", "STORE_MEMBER", "GET_ATTR", "SET_ATTR", "GET_INDEX", "SET_INDEX", "EQ",
    "NE", "LT", "LE", "GT", "GE", "AND", "OR", "NOT", "ADD", "SUB", "MUL", "DIV", "MOD", "NEG",
    "SHL", "SHR", "BIT_AND", "BIT_OR", "BIT_XOR", "BIT_NOT", "IN", "CALL_BUILTIN",
    "CALL_METHOD", "CALL_SELF", "MAKE_ARRAY", "MAKE_DICT", "JUMP", "JUMP_IF_TRUE",
    "JUMP_IF_FALSE", "ITER_BEGIN", "ITER_NEXT", "YIELD", "RETURN", "POP", "ASSERT",
    "BREAKPOINT"].map some)
  widths := some (narrowWidths 2 2 1 1 2 4)
  constants := some [("int_width", .int 4), ("float_width", .int 4)]
  tags := some (numberedTags 5 6)
  builtins := []

/-- The encoding of the third engine: wide constants. -/
def thirdEra : EraEntry where
  name := "gd3"
  engineMajor := .int 3
  variantMajor := .int 3
  lineWidth := .int 4
  opcodes := some ([
    "NOP", "LOAD_CONST", "LOAD_LOCAL", "STORE_LOCAL", "LOAD_MEMBER", "STORE_MEMBER",
    "LOAD_SELF", "LOAD_GLOBAL", "GET_ATTR", "SET_ATTR", "GET_INDEX", "SET_INDEX", "EQ", "NE",
    "LT", "LE", "GT", "GE", "AND", "OR", "NOT", "ADD", "SUB", "MUL", "DIV", "MOD", "NEG",
    "SHL", "SHR", "BIT_AND", "BIT_OR", "BIT_XOR", "BIT_NOT", "IN", "IS", "AS", "CALL_BUILTIN",
    "CALL_METHOD", "CALL_SELF", "MAKE_ARRAY", "MAKE_DICT", "JUMP", "JUMP_IF_TRUE",
    "JUMP_IF_FALSE", "ITER_BEGIN", "ITER_NEXT", "YIELD", "RETURN", "POP", "ASSERT",
    "BREAKPOINT"].map some)
  widths := some (narrowWidths 2 2 2 1 2 4)
  constants := some [("int_width", .int 8), ("float_width", .int 8)]
  tags := some (numberedTags 17 18)
  builtins := []

/-- The encoding of the development of the fourth engine. -/
def fourthEra : EraEntry where
  name := "gd4dev"
  engineMajor := .int 4
  variantMajor := .int 3
  lineWidth := .int 4
  opcodes := some ([
    "NOP", "LOAD_CONST", "LOAD_LOCAL", "STORE_LOCAL", "LOAD_MEMBER", "STORE_MEMBER",
    "LOAD_SELF", "LOAD_GLOBAL", "GET_ATTR", "SET_ATTR", "GET_INDEX", "SET_INDEX", "EQ", "NE",
    "LT", "LE", "GT", "GE", "AND", "OR", "NOT", "ADD", "SUB", "MUL", "DIV", "MOD", "NEG",
    "SHL", "SHR", "BIT_AND", "BIT_OR", "BIT_XOR", "BIT_NOT", "IN", "CALL_BUILTIN",
    "CALL_METHOD", "CALL_SELF", "MAKE_ARRAY", "MAKE_DICT", "JUMP", "JUMP_IF_TRUE",
    "JUMP_IF_FALSE", "ITER_BEGIN", "ITER_NEXT", "YIELD", "RETURN", "POP", "ASSERT",
    "BREAKPOINT", "IS", "AS"].map some)
  widths := some (narrowWidths 4 4 2 2 4 4)
  constants := some [("int_width", .int 8), ("float_width", .int 8)]
  tags := some (numberedTags 24 25)
  builtins := []

/-- No change of the builtin functions. -/
def sameBuiltins : BuiltinChange := ⟨[], [], []⟩

/-- Inserts builtin functions, each after another. -/
def inserting (items : List (String × String)) : BuiltinChange :=
  ⟨[], [], items.map fun i => ⟨some i.1, some i.2⟩⟩

/-- Renames builtin functions. -/
def renamed (items : List (String × String)) : BuiltinChange :=
  ⟨[], items, []⟩

/-- Removes builtin functions. -/
def removing (names : List String) : BuiltinChange :=
  ⟨names, [], []⟩

/-- An entry based on another. -/
def based (base commit release date : String) (format : Int) (summary : String)
    (builtins : BuiltinChange := sameBuiltins) (add : List String := [])
    (remove : List String := []) (era : Option String := none) : Entry :=
  ⟨some (.text commit), some (.text base), era, release, date, summary, some (.int format),
    builtins,
    ⟨add, remove⟩⟩

/-- The first entry of a chain. -/
def root (era commit release date : String) (format : Int) (summary : String) (add : List String) :
    Entry :=
  ⟨some (.text commit), none, some era, release, date, summary, some (.int format), sameBuiltins,
    ⟨add, []⟩⟩

/-- The commits that changed the bytecode, oldest first. -/
def standardEntries : List Entry := [
  root "gd1" "0b806ee" "1.0 dev" "2014-02-09" 1 "initial version"
    ["for_in", "inner_class", "legacy_switch_tokens"],
  based "0b806ee" "8c1731b" "1.0 dev" "2014-02-15" 2 "added `load` function"
    (inserting [("load", "range")]),
  based "8c1731b" "31ce3c5" "1.0 dev" "2014-03-13" 2 "added `funcref` function"
    (inserting [("funcref", "weakref")]),
  based "31ce3c5" "703004f" "1.0 dev" "2014-06-16" 2 "added `hash` function"
    (inserting [("hash", "dict2inst")]),
  based "703004f" "8cab401" "1.0 dev" "2014-09-15" 2 "added `YIELD` token"
    sameBuiltins ["yield"],
  based "8cab401" "e82dc40" "1.0.0 release" "2014-10-27" 3 "added `SETGET` token"
    sameBuiltins ["setget"],
  based "e82dc40" "2185c01" "1.1 dev" "2015-02-15" 3 "added `var2str`, `str2var` functions"
    (inserting [("var2str", "printraw"), ("str2var", "var2str")]),
  based "2185c01" "97f34a1" "1.1 dev" "2015-03-25" 3 "added `seed`, `get_inst` functions"
    (inserting [("seed", "rand_range"), ("get_inst", "print_stack")]),
  based "97f34a1" "be46be7" "1.1 dev" "2015-04-18" 3
    "function `get_inst` renamed to `instance_from_id`"
    (renamed [("get_inst", "instance_from_id")]),
  based "be46be7" "65d48d6" "1.1.0 release" "2015-05-09" 4 "added `prints` function"
    (inserting [("prints", "printt")]),
  based "65d48d6" "48f1d02" "2.0 dev" "2015-06-24" 5 "added `SIGNAL` token"
    sameBuiltins ["signal"] [] (some "gd2"),
  based "48f1d02" "30c1229" "2.0 dev" "2015-12-28" 6 "added `ONREADY` token"
    sameBuiltins ["onready"],
  based "30c1229" "7d2d144" "2.0 dev" "2015-12-29" 7 "added `BREAKPOINT` token"
    sameBuiltins ["breakpoint"],
  based "7d2d144" "64872ca" "2.0 dev" "2015-12-31" 8 "added `Color8` function"
    (inserting [("Color8", "hash")]),
  based "64872ca" "6174585" "2.0 dev" "2016-01-02" 9 "added `CONST_PI` token"
    sameBuiltins ["const_pi"],
  based "6174585" "23441ec" "2.0.0 - 2.0.4-1 release" "2016-01-02" 10
    "added `var2bytes`, `bytes2var` functions"
    (inserting [("var2bytes", "str2var"), ("bytes2var", "var2bytes")]),
  based "23441ec" "7124599" "2.1.0 - 2.1.1 release" "2016-06-18" 10 "added `type_exists` function"
    (inserting [("type_exists", "typeof")]),
  based "7124599" "85585c7" "2.1.2 release" "2017-01-12" 10 "added `ColorN` function (backport)"
    (inserting [("ColorN", "Color8")]),
  based "85585c7" "ed80f45" "2.1.3 - 2.1.6 release" "2017-04-06" 10
    "added `ENUM` token (backport)"
    sameBuiltins ["enum"],
  based "7124599" "1add52b" "3.0 dev" "2016-08-19" 11
    "added `REMOTE`, `SYNC`, `MASTER`, `SLAVE` tokens"
    (renamed [("isnan", "is_nan"), ("isinf", "is_inf")]) ["remote_keywords"] [] (some "gd3"),
  based "1add52b" "4ee82a2" "3.0 dev" "2016-08-27" 11 "added `ENUM` token"
    sameBuiltins ["enum"],
  based "4ee82a2" "513c026" "3.0 dev" "2016-10-03" 11 "added `char` function"
    (inserting [("char", "type_exists")]),
  based "513c026" "23381a5" "3.0 dev" "2016-12-17" 11 "added `ColorN` function"
    (inserting [("ColorN", "Color8")]),
  based "23381a5" "8b912d1" "3.0 dev" "2017-01-08" 11 "added `DOLLAR` token"
    sameBuiltins ["dollar"],
  based "8b912d1" "62273e5" "3.0 dev" "2017-01-08" 12
    "added `validate_json`, `parse_json`, `to_json` functions"
    (inserting [("validate_json", "dict2inst"), ("parse_json", "validate_json"),
      ("to_json", "parse_json")]),
  based "62273e5" "f8a7c46" "3.0 dev" "2017-01-11" 12 "added `MATCH` token"
    sameBuiltins ["match"],
  based "f8a7c46" "c24c739" "3.0 dev" "2017-01-20" 12 "added `WILDCARD` token"
    sameBuiltins ["wildcard"],
  based "c24c739" "5e938f0" "3.0 dev" "2017-02-28" 12 "added `CONST_INF`, `CONST_NAN` tokens"
    sameBuiltins ["const_inf_nan"],
  based "5e938f0" "015d36d" "3.0 dev" "2017-05-27" 12 "added `IS` token"
    sameBuiltins ["is_operator"],
  based "015d36d" "c6120e7" "3.0 dev" "2017-08-07" 12 "added `len` function"
    (inserting [("len", "instance_from_id")]),
  based "c6120e7" "d28da86" "3.0 dev" "2017-08-18" 12
    "added `inverse_lerp`, `range_lerp` functions"
    (inserting [("inverse_lerp", "lerp"), ("range_lerp", "inverse_lerp")]),
  based "d28da86" "216a8aa" "3.0 dev" "2017-10-13" 12 "added `wrapi`, `wrapf` functions"
    (inserting [("wrapi", "db2linear"), ("wrapf", "wrapi")]),
  based "216a8aa" "91ca725" "3.0 dev" "2017-11-12" 12 "added `CONST_TAU` token"
    sameBuiltins ["const_tau"],
  based "91ca725" "054a2ac" "3.0.0 - 3.0.6 release" "2017-11-20" 12
    "added `polar2cartesian`, `cartesian2polar` functions"
    (inserting [("polar2cartesian", "db2linear"), ("cartesian2polar", "polar2cartesian")]),
  based "054a2ac" "ff1e7cf" "3.1 dev" "2018-05-07" 12 "added `is_instance_valid` function"
    (inserting [("is_instance_valid", "len")]),
  based "ff1e7cf" "a56d6ff" "3.1 dev" "2018-05-17" 12 "added `get_stack` function"
    (inserting [("get_stack", "print_stack")]),
  based "a56d6ff" "3ea6d9f" "3.1 dev" "2018-05-28" 12 "added `print_debug` function"
    (inserting [("print_debug", "printraw")]),
  based "3ea6d9f" "8e35d93" "3.1 dev" "2018-05-29" 12
    "added `REMOTESYNC`, `MASTERSYNC`, `SLAVESYNC` tokens",
  based "8e35d93" "a3f1ee5" "3.1 dev" "2018-07-15" 13 "added `CLASS_NAME` token"
    sameBuiltins ["class_name"],
  based "a3f1ee5" "8aab9a0" "3.1 dev" "2018-07-20" 13 "added `AS`, `VOID`, `FORWARD_ARROW` tokens"
    sameBuiltins ["as_cast"],
  based "8aab9a0" "d6b31da" "3.1 dev" "2018-09-15" 13
    "added `PUPPET` token, token `SLAVESYNC` renamed to `PUPPETSYNC`",
  based "d6b31da" "1ca61a3" "3.1 beta 1 - beta 5" "2018-10-31" 13
    "added `push_error`, `push_warning` functions"
    (inserting [("push_error", "print_debug"), ("push_warning", "push_error")]),
  based "1ca61a3" "1a36141" "3.1.0 release" "2019-02-20" 13
    "removed `DO`, `CASE`, `SWITCH` tokens"
    sameBuiltins [] ["legacy_switch_tokens"],
  based "1a36141" "514a3fb" "3.1.1 release" "2019-03-19" 13
    "added `smoothstep` function, add 2nd optional arg to `var2bytes` and `bytes2var`"
    (inserting [("smoothstep", "range_lerp")]),
  based "514a3fb" "7f7d97f" "3.2 dev" "2019-04-29" 13
    "added `is_equal_approx` and `is_zero_approx` functions"
    (inserting [("is_equal_approx", "is_inf"), ("is_zero_approx", "is_equal_approx")]),
  based "7f7d97f" "620ec47" "3.2 dev" "2019-05-01" 13 "added `step_decimals` function"
    (inserting [("step_decimals", "decimals")]),
  based "620ec47" "c00427a" "3.2 dev" "2019-06-01" 13 "added `move_toward` function"
    (inserting [("move_toward", "smoothstep")]),
  based "c00427a" "a60f242" "3.2 dev" "2019-07-19" 13 "added `posmod` function"
    (inserting [("posmod", "fposmod")]),
  based "a60f242" "6694c11" "3.2 dev" "2019-07-20" 13 "added `lerp_angle` function"
    (inserting [("lerp_angle", "lerp")]),
  based "6694c11" "5565f55" "3.2.0 release" "2019-08-26" 13 "added `ord` function"
    (inserting [("ord", "char")]),
  based "5565f55" "a7aad78" "3.5.0 release" "2020-10-07" 13
    "added `deep_equal` function (never added to 4.x)"
    (inserting [("deep_equal", "len")]),
  based "5565f55" "506df14" "4.0 dev" "2020-02-12" 13 "removed `decimals` function"
    (removing ["decimals"]) [] [] (some "gd4dev"),
  based "506df14" "f3f05dc" "4.0 dev" "2020-02-13" 13 "removed `SYNC` and `SLAVE` tokens"]

/-- The data of all known dialects. -/
def standardSource : Source where
  operations := some standardOperations
  features := some standardFeatures
  gates := [("YIELD", "yield"), ("BREAKPOINT", "breakpoint"), ("IS", "is_operator"),
    ("AS", "as_cast")]
  eras := some [firstEra, secondEra, thirdEra, fourthEra]
  entries := some standardEntries

/-- The registry that data resolved to, or that of the data without any dialects. -/
def orEmpty (src : Source) : Resolved Registry → Registry
  | .ok r => r
  | .error _ => ⟨src, []⟩

/-- The registry of all known dialects. -/
def standard : Registry :=
  orEmpty standardSource (ofSource standardSource)

end Unscript.Registry
