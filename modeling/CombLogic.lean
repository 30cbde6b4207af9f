import CombLogic.Value.Basic
import CombLogic.Value.Arith
import CombLogic.Value.Bitwise
import CombLogic.Value.Layout
import CombLogic.Value.Packed
import CombLogic.Expr.Basic
import CombLogic.Expr.Op
import CombLogic.Expr.Build
import CombLogic.Expr.Traverse
import CombLogic.Netlist.Text
import CombLogic.Ascending
import CombLogic.Numbered
import CombLogic.Ordered
import CombLogic.Netlist.Error
import CombLogic.Netlist.Basic
import CombLogic.Netlist.Bundle
import CombLogic.Netlist.Sizing
import CombLogic.Netlist.Eval
import CombLogic.Netlist.Connect
import CombLogic.Netlist.Order
import CombLogic.Netlist.Settle
import CombLogic.Diagnostic.Basic
import CombLogic.Settings.Basic
import CombLogic.Block.Scratch
import CombLogic.Block.Statement
import CombLogic.Block.Error
import CombLogic.Block.Coverage
import CombLogic.Block.Execute
import CombLogic.Block.Compile
import CombLogic.Scan
import CombLogic.Json.Value
import CombLogic.Json.Encode
import CombLogic.Json.Decode
import CombLogic.Toml.Value
import CombLogic.Toml.Read
import CombLogic.Settings.Read
import CombLogic.Proofs.Collections
import CombLogic.Proofs.Order
import CombLogic.Proofs.Sharing
import CombLogic.Proofs.Sizes
import CombLogic.Proofs.Traversal
import CombLogic.Proofs.Evaluation
import CombLogic.Proofs.Numbering
import CombLogic.Proofs.Sizing.Plain
import CombLogic.Proofs.Sizing.Memo
import CombLogic.Proofs.Sizing.Sized
import CombLogic.Proofs.Sizing.Stable
import CombLogic.Proofs.Width.Value
import CombLogic.Proofs.Width.Rule
import CombLogic.Proofs.Netlist.Lookup
import CombLogic.Proofs.Outcome
import CombLogic.Proofs.Netlist.Drivers
import CombLogic.Proofs.Netlist.Subscribers
import CombLogic.Proofs.Netlist.Kept
import CombLogic.Proofs.Netlist.Pass
import CombLogic.Proofs.Netlist.Commit
import CombLogic.Proofs.Netlist.Attach
import CombLogic.Proofs.Netlist.Moves
import CombLogic.Proofs.Block.Run
import CombLogic.Proofs.Block.Resolve
import CombLogic.Proofs.Block.Executing
import CombLogic.Proofs.Block.Leads
import CombLogic.Proofs.Block.Assign
import CombLogic.Proofs.Block.Choice
import CombLogic.Proofs.Block.Sites
import CombLogic.Proofs.Block.Items
import CombLogic.Proofs.Block.Guards
import CombLogic.Proofs.Block.Watches
import CombLogic.Proofs.Block.Overlap
import CombLogic.Proofs.Block.Linted
import CombLogic.Proofs.Block.Logs
import CombLogic.Proofs.Block.Execute
import CombLogic.Proofs.Block.Watching
import CombLogic.Proofs.Block.Plan
import CombLogic.Proofs.Block.Checks
import CombLogic.Proofs.Block.Attach
import CombLogic.Proofs.Block.Compile
import CombLogic.Proofs.Netlist.Declare
import CombLogic.Proofs.Block.Atomic
import CombLogic.Proofs.Netlist.Edits
import CombLogic.Proofs.Calls
import CombLogic.Proofs.Recomputation
import CombLogic.Proofs.Block.Meaning
import CombLogic.Proofs.Width.Balanced
import CombLogic.Proofs.Netlist.Widths
import CombLogic.Proofs.Widths
import CombLogic.Proofs.Netlist.Checks
import CombLogic.Proofs.Conflicts
import CombLogic.Proofs.Overlaps
import CombLogic.Proofs.Netlist.Loops
import CombLogic.Proofs.Loops
import CombLogic.Proofs.Netlist.Settled
import CombLogic.Proofs.History
import CombLogic.Proofs.Unknown.Value
import CombLogic.Proofs.Unknown.Expr
import CombLogic.Proofs.Netlist.Inputs
import CombLogic.Proofs.Unknowns
import CombLogic.Proofs.Netlist.Failures
import CombLogic.Proofs.Netlist.Links
import CombLogic.Proofs.Netlist.Turns
import CombLogic.Proofs.Drives
import CombLogic.Proofs.Cycles
import CombLogic.Proofs.Components
import CombLogic.Proofs.Netlist.Downstream
import CombLogic.Proofs.Passes
import CombLogic.Proofs.Netlist.Reports
import CombLogic.Proofs.Reports
import CombLogic.Proofs.Block.Flow
import CombLogic.Proofs.Block.Backed
import CombLogic.Proofs.Block.Approved
import CombLogic.Proofs.Block.Spares
import CombLogic.Proofs.Latches
import CombLogic.Proofs.Twins.Nodes
import CombLogic.Proofs.Twins.Mirrors
import CombLogic.Proofs.Twins.Sizing
import CombLogic.Proofs.Twins.Resolving
import CombLogic.Proofs.Twins.Executing
import CombLogic.Proofs.Twins.Choice
import CombLogic.Proofs.Twins.Items
import CombLogic.Proofs.Twins.Guards
import CombLogic.Proofs.Twins.Statements
import CombLogic.Proofs.Twins.Plan
import CombLogic.Proofs.OverlapRules
import CombLogic.Proofs.Success
import CombLogic.Proofs.Netlist.Layout
import CombLogic.Proofs.Netlist.Pieces
import CombLogic.Proofs.Layout
import CombLogic.Proofs.Netlist.Bundles
import CombLogic.Proofs.Connections
import CombLogic.Proofs.Sizing.Fixed
import CombLogic.Proofs.Block.Shares
import CombLogic.Proofs.Block.Traces
import CombLogic.Proofs.Block.Finished
import CombLogic.Proofs.Block.Latching
import CombLogic.Proofs.Block.Replay
import CombLogic.Proofs.Block.Paths
import CombLogic.Proofs.Block.Sources
import CombLogic.Proofs.Locals
import CombLogic.Proofs.Block.Plain
import CombLogic.Proofs.Block.Chain
import CombLogic.Proofs.Chains
import CombLogic.Proofs.Packed.Cells
import CombLogic.Proofs.Packed.Stores
import CombLogic.Proofs.Integers
import CombLogic.Proofs.Packed.Operations
import CombLogic.Proofs.Packing
import CombLogic.Proofs.Bytes
import CombLogic.Proofs.Arithmetic
import CombLogic.Proofs.Attempts
import CombLogic.Proofs.Sessions
import CombLogic.Proofs.Netlist.Trace
import CombLogic.Proofs.Memo
import CombLogic.Proofs.Block.Joined
import CombLogic.Proofs.Block.Merges
import CombLogic.Proofs.Block.Spans
import CombLogic.Proofs.Block.Merged
import CombLogic.Proofs.Merging
import CombLogic.Proofs.Shifts
import CombLogic.Proofs.Verdicts
import CombLogic.Proofs.Block.Patterns
import CombLogic.Proofs.Unreachable
import CombLogic.Proofs.Block.Steps
import CombLogic.Proofs.Block.Errors
import CombLogic.Proofs.Block.Emits
import CombLogic.Proofs.Block.Visits
import CombLogic.Proofs.Block.Telling
import CombLogic.Proofs.Block.Denied
import CombLogic.Proofs.OverlapReports
import CombLogic.Proofs.Diagnostics
import CombLogic.Proofs.Texts
import CombLogic.Proofs.Literals
import CombLogic.Proofs.Netlist.Trees
import CombLogic.Proofs.Netlist.Clones
import CombLogic.Proofs.Clones
import CombLogic.Proofs.Searches
import CombLogic.Proofs.Resolutions
