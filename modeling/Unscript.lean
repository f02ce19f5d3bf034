import Unscript.Text.Blank
import Unscript.Text.Numeral
import Unscript.Text.Quoted
import Unscript.Number.Decimal
import Unscript.Json.Parser
import Unscript.Json.Printer
import Unscript.Bytes.Reader
import Unscript.Bytes.Writer
import Unscript.Registry.Standard
import Unscript.Registry.Document
import Unscript.Container
import Unscript.Diagnostic
import Unscript.Script.Decode
import Unscript.Script.Builder
import Unscript.Script.Listing
import Unscript.Script.Document
import Unscript.Envelope.Basic
import Unscript.Flow.Analysis
import Unscript.Tree.Node
import Unscript.Structuring.Structured
import Unscript.Source.Literal
import Unscript.Source.Names
import Unscript.Source.Expr
import Unscript.Source.Unit
import Unscript.Detection.Basic
import Unscript.Options
import Unscript.Decompilation.Result
import Unscript.Decompilation.Run
import Unscript.Decompilation.Report
import Unscript.Tree.Document
import Unscript.Path
import Unscript.Text.Utf8
import Unscript.Number.Numeral
import Unscript.FileTree
import Unscript.CommandLine.Invocation
import Unscript.CommandLine.Run
import Unscript.Main
import Unscript.Proofs.Outcome
import Unscript.Proofs.Bytes.Fields
import Unscript.Proofs.Number.Widening
import Unscript.Proofs.Bytes.Reading
import Unscript.Proofs.Registry.Descent
import Unscript.Proofs.Registry.Entries
import Unscript.Proofs.Registry.Known
import Unscript.Proofs.Registry.Concrete
import Unscript.Proofs.Registry.Changes
import Unscript.Proofs.Registry.Inheritance
import Unscript.Proofs.Registry.Keys
import Unscript.Proofs.Registry.Inversion
import Unscript.Proofs.Script.Tables
import Unscript.Proofs.Script.Code
import Unscript.Proofs.Script.Reencoding
import Unscript.Proofs.Tree.Run
import Unscript.Proofs.Tree.Node
import Unscript.Proofs.Tree.Bound
import Unscript.Proofs.Flow.Path
import Unscript.Proofs.Flow.Reach
import Unscript.Proofs.Flow.Graph
import Unscript.Proofs.Flow.Dominance
import Unscript.Proofs.Flow.Analysis
import Unscript.Proofs.Structuring.Walk
import Unscript.Proofs.Structuring.Derivation
import Unscript.Proofs.Structuring.Walked
import Unscript.Proofs.Structuring.Simulation
import Unscript.Proofs.Structuring.Turns
import Unscript.Proofs.Flow.Loops
import Unscript.Proofs.Structuring.Count
import Unscript.Proofs.Structuring.Reconstruction
import Unscript.Proofs.Bytes.Framing
import Unscript.Proofs.Bytes.Progress
import Unscript.Proofs.Script.Acceptance
import Unscript.Proofs.Script.Decoding
import Unscript.Proofs.Script.Isolation
import Unscript.Proofs.Script.Truncation
import Unscript.Proofs.Script.Instructions
import Unscript.Proofs.Lifting.Effect
import Unscript.Proofs.Lifting.Depth
import Unscript.Proofs.Lifting.Machine
import Unscript.Proofs.Lifting.Steady
import Unscript.Proofs.Lifting.Clock
import Unscript.Proofs.Lifting.Agreement
import Unscript.Proofs.Lifting.Account
import Unscript.Proofs.Flow.Transfers
import Unscript.Proofs.Structuring.Steps
import Unscript.Proofs.Structuring.Fuel
import Unscript.Proofs.Structuring.Ownership
import Unscript.Proofs.Source.Precedence
import Unscript.Proofs.Lifting.Origin
import Unscript.Proofs.Structuring.Origin
import Unscript.Proofs.Structuring.Forms
import Unscript.Proofs.Source.Declarations
import Unscript.Proofs.Detection.Choice
import Unscript.Proofs.Detection.Exact
import Unscript.Proofs.Script.Extent
import Unscript.Proofs.Script.Placement
import Unscript.Proofs.Script.Assembling
import Unscript.Proofs.Script.Pooling
import Unscript.Proofs.Decompilation.Results
import Unscript.Proofs.Decompilation.Bound
import Unscript.Proofs.Decompilation.Exhaustion
import Unscript.Proofs.CommandLine.Files
import Unscript.Proofs.CommandLine.Delivery
import Unscript.Proofs.CommandLine.Overwriting
import Unscript.Proofs.Source.Comments
import Unscript.Proofs.Source.Labels
import Unscript.Proofs.Source.Skeletons
import Unscript.Proofs.Container
import Unscript.Proofs.Envelope.Opening
import Unscript.Proofs.Flow.Joins
import Unscript.Proofs.Flow.NaturalLoops
import Unscript.Proofs.Flow.Cycles
import Unscript.Proofs.Script.Lining
import Unscript.Proofs.Source.Naming
import Unscript.Proofs.Source.Quoting
