import Unscript.Diagnostic
import Unscript.Script.Function

/-!
# Control flow graphs

The instructions of a function are cut into blocks: a block starts at the first instruction, at
every target of a jump and after every instruction that can transfer control. A virtual block
without instructions stands at the end; it is where control goes when the function returns, jumps
to the end of its code or runs off it.

* `Graph.build` cuts a stream into blocks and links them. A jump to an offset at which no
  instruction starts is an error, unless the rest of the stream was never decoded.
* `Graph.edges` lists the transfers between blocks.
-/

namespace Unscript

/-- What happens at the end of a block, with the blocks where control goes. An iterator goes to its
first block when it has an element and to the second when it is exhausted. -/
inductive Ending where
  | jump (target : Nat)
  | cond (whenTrue whenFalse : Nat)
  | iterBegin (element exhausted : Nat)
  | iterNext (element exhausted : Nat)
  | ret (exit : Nat)
  | fallthrough (next : Nat)
  | exit
  deriving DecidableEq, Repr

/-- The kinds of endings. -/
inductive EndingKind where
  | jump
  | cond
  | iterBegin
  | iterNext
  | ret
  | fallthrough
  | exit
  deriving DecidableEq, Repr

/-- The word for a kind of ending. -/
def EndingKind.text : EndingKind → String
  | .jump => "jump"
  | .cond => "cond"
  | .iterBegin => "iter_begin"
  | .iterNext => "iter_next"
  | .ret => "return"
  | .fallthrough => "fallthrough"
  | .exit => "exit"

namespace Ending

/-- The blocks where control can go, each once. -/
def successors : Ending → List Nat
  | .jump t | .ret t | .fallthrough t => [t]
  | .cond a b | .iterBegin a b | .iterNext a b => if a = b then [a] else [a, b]
  | .exit => []

/-- The kind of an ending. -/
def kind : Ending → EndingKind
  | .jump _ => .jump
  | .cond _ _ => .cond
  | .iterBegin _ _ => .iterBegin
  | .iterNext _ _ => .iterNext
  | .ret _ => .ret
  | .fallthrough _ => .fallthrough
  | .exit => .exit

/-- Where control can go, an arm at a time; a return goes nowhere else. -/
def destinations : Ending → List Nat
  | .jump t | .fallthrough t => [t]
  | .cond a b | .iterBegin a b | .iterNext a b => [a, b]
  | .ret _ | .exit => []

/-- The two arms of an ending that tests something. -/
def arms? : Ending → Option (Nat × Nat)
  | .cond a b | .iterBegin a b | .iterNext a b => some (a, b)
  | _ => none

/-- The single block where control goes. -/
def target? : Ending → Option Nat
  | .jump t | .ret t | .fallthrough t => some t
  | _ => none

end Ending

/-- A block: its instructions, the first of which has the index `start`, and its ending. -/
structure Block where
  start : Nat
  instructions : List Instruction
  ending : Ending
  deriving Repr

namespace Block

/-- Whether the block stands for the end of the function. -/
def isVirtual (b : Block) : Bool :=
  b.ending == .exit

/-- The index of the last instruction. -/
def last (b : Block) : Int :=
  b.start + b.instructions.length - 1

end Block

/-- A transfer between blocks. `polarity` tells the arms of a test apart. -/
structure Edge where
  source : Nat
  target : Nat
  kind : String
  polarity : Option Bool
  deriving DecidableEq, Repr

/-- The transfers of an ending. -/
def Ending.edges (source : Nat) : Ending → List Edge
  | .jump t => [⟨source, t, "jump", none⟩]
  | .cond a b => [⟨source, a, "branch", some true⟩, ⟨source, b, "branch", some false⟩]
  | .iterBegin a b | .iterNext a b =>
    [⟨source, a, "iter_body", some true⟩, ⟨source, b, "iter_exit", some false⟩]
  | .ret t => [⟨source, t, "return", none⟩]
  | .fallthrough t => [⟨source, t, "fallthrough", none⟩]
  | .exit => []

/-- Why a stream has no graph. -/
inductive GraphFault where
  | strayJump (target : Nat) (at_ : Instruction)
  | noTarget
  deriving DecidableEq, Repr

/-- The report of a stray jump. A jump without a target has none: no decoder produces it. -/
def GraphFault.diagnostic? : GraphFault → Option Diagnostic
  | .strayJump target i =>
    let place := Text.hexOffset i.offset
    some {
      kind := "ReconstructError"
      message := s!"jump target {target} of instruction at {place} is not an instruction " ++
        "boundary (block 0)"
      offset := some i.position
      block := some 0 }
  | .noTarget => none

/-- A control flow graph. The last block is the virtual one. `truncated` tells that some jump leads
into a part of the stream that was never decoded. -/
structure Graph where
  instructions : List Instruction
  blocks : Array Block
  truncated : Bool

namespace Graph

/-- The count of blocks. -/
def size (g : Graph) : Nat :=
  g.blocks.size

/-- The id of the virtual block. -/
def exit (g : Graph) : Nat :=
  g.size - 1

/-- The block of an id. -/
def block (g : Graph) (id : Nat) : Block :=
  g.blocks[id]?.getD ⟨0, [], .exit⟩

/-- The blocks where control can go from a block. -/
def successors (g : Graph) (id : Nat) : List Nat :=
  (g.block id).ending.successors

/-- The blocks from which control can come, in ascending order. -/
def predecessors (g : Graph) (id : Nat) : List Nat :=
  (List.range g.size).filter fun p => (g.successors p).contains id

/-- The transfers between blocks. -/
def edges (g : Graph) : List Edge :=
  g.blocks.toList.zipIdx.flatMap fun (b, id) => b.ending.edges id

/-! ## Building -/

/-- Where a jump leads: to an instruction by index, to the end, or past what was decoded. -/
inductive Destination where
  | instruction (index : Nat)
  | codeEnd
  | undecoded
  deriving DecidableEq, Repr

/-- The stream that a graph is built from: its instructions and its whole length. -/
structure Stream where
  instructions : List Instruction
  length : Nat

namespace Stream

/-- The stream of decoded instructions; without a length it ends with the last of them. -/
def ofInstructions (is : List Instruction) (length : Option Nat) : Stream where
  instructions := is
  length := length.getD ((is.getLast?.map (·.ending)).getD 0)

/-- The offset at which decoding stopped. -/
def decodedEnd (s : Stream) : Nat :=
  (s.instructions.getLast?.map (·.ending)).getD 0

/-- The index of the last instruction at an offset. -/
def indexOf? (s : Stream) (offset : Nat) : Option Nat :=
  (s.instructions.zipIdx.reverse.find? (·.1.offset == offset)).map (·.2)

/-- Where a jump of an instruction leads. -/
def resolve (s : Stream) (i : Instruction) (target : Nat) : Except GraphFault Destination :=
  match s.indexOf? target with
  | some index => .ok (.instruction index)
  | none =>
    if target = s.length then .ok .codeEnd
    else if s.decodedEnd ≤ target ∧ s.decodedEnd < s.length then .ok .undecoded
    else .error (.strayJump target i)

/-- The destinations of all jumps, in order. -/
def destinations (s : Stream) : Except GraphFault (List Destination) :=
  (s.instructions.filterMap fun i =>
    if i.isBranch then i.target?.map (i, ·) else none).mapM fun (i, t) => s.resolve i t

/-- The indices at which a block starts, given the destinations of the jumps. -/
def isStart (s : Stream) (ds : List Destination) (index : Nat) : Bool :=
  index == 0 || ds.contains (.instruction index) ||
    match s.instructions[index - 1]? with
    | some before => before.isBranch
    | none => false

/-- The indices at which a block starts, in ascending order. -/
def starts (s : Stream) (ds : List Destination) : List Nat :=
  (List.range s.instructions.length).filter (s.isStart ds)

/-- The block that holds an instruction: the last one that starts at or before it. -/
def blockOf (starts : List Nat) (index : Nat) : Nat :=
  (starts.takeWhile (· ≤ index)).length - 1

/-- The block where a jump leads. -/
def targetBlock (s : Stream) (starts : List Nat) (i : Instruction) : Except GraphFault Nat :=
  match i.target? with
  | none => .error .noTarget
  | some target => do
    match ← s.resolve i target with
    | .instruction index => pure (blockOf starts index)
    | .codeEnd | .undecoded => pure starts.length

/-- The ending of a block by its last instruction; `next` is the block after it. -/
def endingOf (s : Stream) (starts : List Nat) (next : Nat) (i : Instruction) :
    Except GraphFault Ending := do
  match i.transfer with
  | .next => pure (.fallthrough next)
  | .ret => pure (.ret starts.length)
  | .jump => pure (.jump (← s.targetBlock starts i))
  | .branchTrue => pure (.cond (← s.targetBlock starts i) next)
  | .branchFalse => pure (.cond next (← s.targetBlock starts i))
  | .iterBegin => pure (.iterBegin next (← s.targetBlock starts i))
  | .iterNext => pure (.iterNext (← s.targetBlock starts i) next)

/-- The instructions from `start` to before the next start. -/
def slice (s : Stream) (starts : List Nat) (id start : Nat) : List Instruction :=
  let stop := starts[id + 1]?.getD s.instructions.length
  (s.instructions.drop start).take (stop - start)

/-- A block by its id and the index of its first instruction. -/
def blockAt (s : Stream) (starts : List Nat) (id start : Nat) : Except GraphFault Block := do
  let body := s.slice starts id start
  match body.getLast? with
  | some i => pure ⟨start, body, ← s.endingOf starts (id + 1) i⟩
  | none => pure ⟨start, [], .exit⟩

end Stream

/-- Builds the graph of a stream. -/
def ofStream (s : Stream) : Except GraphFault Graph := do
  let ds ← s.destinations
  let starts := s.starts ds
  let blocks ← starts.zipIdx.mapM fun (start, id) => s.blockAt starts id start
  pure {
    instructions := s.instructions
    blocks := (blocks ++ [Block.mk s.instructions.length [] .exit]).toArray
    truncated := ds.contains .undecoded }

/-- Builds the graph of decoded instructions; without a length the code ends with the last of
them. -/
def build (is : List Instruction) (length : Option Nat := none) : Except GraphFault Graph :=
  ofStream (Stream.ofInstructions is length)

end Graph

end Unscript
