import ThreeAddress.Main
import ThreeAddress.Program.Writer
import ThreeAddress.Proofs.Machine
import ThreeAddress.Proofs.Allocator.Choice
import ThreeAddress.Proofs.Allocator.Walk
import ThreeAddress.Proofs.Allocator.Written
import ThreeAddress.Proofs.Allocator.Cells
import ThreeAddress.Proofs.Allocator.Invariant
import ThreeAddress.Proofs.Allocator.UpToDate
import ThreeAddress.Proofs.Allocator.Named
import ThreeAddress.Proofs.Liveness
import ThreeAddress.Proofs.Frame
import ThreeAddress.Proofs.Homes
import ThreeAddress.Proofs.Lowering
import ThreeAddress.Proofs.CallingConvention
import ThreeAddress.Proofs.FlowGraph.Reach
import ThreeAddress.Proofs.Simulation.Actions
import ThreeAddress.Proofs.Simulation.Function
import ThreeAddress.Proofs.Preservation
import ThreeAddress.Proofs.WholeProgram
import ThreeAddress.Proofs.Liveness.Exact
import ThreeAddress.Proofs.Encoding
import ThreeAddress.Proofs.Labels
import ThreeAddress.Proofs.NamedDestinations
import ThreeAddress.Proofs.Json.Reading
import ThreeAddress.Proofs.Program.RoundTrip
import ThreeAddress.Proofs.FlowGraph.Positions
import ThreeAddress.Proofs.Allocator.Emission
import ThreeAddress.Proofs.FlowGraph.Prune
import ThreeAddress.Proofs.Unreachable
import ThreeAddress.Proofs.Allocator.Effect
import ThreeAddress.Proofs.Allocator.Failure
import ThreeAddress.Proofs.CalleeSaved
import ThreeAddress.Proofs.Allocator.Isolation
import ThreeAddress.Proofs.FallThrough
import ThreeAddress.Proofs.Allocator.Accesses
import ThreeAddress.Proofs.Outcome
import ThreeAddress.Proofs.Allocator.Reports
import ThreeAddress.Proofs.Allocator.Points
import ThreeAddress.Proofs.Allocator.Operands
import ThreeAddress.Proofs.Allocator.Pressure
import ThreeAddress.Proofs.Allocator.Stored
import ThreeAddress.Proofs.UnstoredReads
import ThreeAddress.Proofs.Allocator.Crossing
import ThreeAddress.Proofs.LoadsFollowStores
import ThreeAddress.Proofs.Allocator.InStep
import ThreeAddress.Proofs.Listing
import ThreeAddress.Proofs.AsmReading
import ThreeAddress.Proofs.Comments
import ThreeAddress.Proofs.Allocator.Reuse
import ThreeAddress.Proofs.RegisterFile.Placement
import ThreeAddress.Proofs.Frame.Undoing
import ThreeAddress.Proofs.Selection
import ThreeAddress.Proofs.FlowGraph.Adjacency
import ThreeAddress.Proofs.FlowGraph.Blocks
import ThreeAddress.Proofs.Liveness.Idempotent
import ThreeAddress.Proofs.Liveness.Summary
