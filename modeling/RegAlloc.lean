import RegAlloc.Sorted
import RegAlloc.Register
import RegAlloc.Operand
import RegAlloc.Instruction
import RegAlloc.Position
import RegAlloc.Error
import RegAlloc.LiveRange
import RegAlloc.Interval
import RegAlloc.Target
import RegAlloc.Function
import RegAlloc.Function.Builder
import RegAlloc.Liveness
import RegAlloc.Lifetimes
import RegAlloc.Scan.Conflicts
import RegAlloc.Scan.SlotPool
import RegAlloc.Scan.State
import RegAlloc.Scan.Verdict
import RegAlloc.Scan.Run
import RegAlloc.Allocation
import RegAlloc.ParallelMove
import RegAlloc.Placement
import RegAlloc.Layout
import RegAlloc.Compile
import RegAlloc.Json.Value
import RegAlloc.Json.Reader
import RegAlloc.Json.Codec
import RegAlloc.Proofs.Frame
import RegAlloc.Proofs.MoveCode
import RegAlloc.Proofs.ParallelMove
import RegAlloc.Proofs.LiveRange
import RegAlloc.Proofs.Tiling
import RegAlloc.Proofs.Verdict
import RegAlloc.Proofs.Refusal
import RegAlloc.Proofs.ScanState
import RegAlloc.Proofs.ScanRun
import RegAlloc.Proofs.Progress
import RegAlloc.Proofs.Allocation
import RegAlloc.Proofs.Denial
import RegAlloc.Proofs.Lifetimes
import RegAlloc.Proofs.Paths
import RegAlloc.Proofs.Openings
import RegAlloc.Proofs.Dominance
import RegAlloc.Proofs.Pinned
import RegAlloc.Proofs.Slots
import RegAlloc.Proofs.Homes
import RegAlloc.Proofs.Transfers
import RegAlloc.Proofs.Instructions
import RegAlloc.Proofs.Regular
import RegAlloc.Proofs.Lockstep
import RegAlloc.Proofs.Edges
import RegAlloc.Proofs.Totality
import RegAlloc.Proofs.Runs
import RegAlloc.Proofs.Layout
import RegAlloc.Proofs.Preservation
import RegAlloc.Proofs.SelfHints
import RegAlloc.Proofs.Uniform
import RegAlloc.Proofs.UniformLifetimes
import RegAlloc.Proofs.StackFrame
import RegAlloc.Proofs.Widths
import RegAlloc.Proofs.Effects
import RegAlloc.Proofs.ControlFlow
import RegAlloc.Proofs.Physical
import RegAlloc.Proofs.Addresses
import RegAlloc.Proofs.Truncation
import RegAlloc.Proofs.Occupancy
import RegAlloc.Proofs.Dataflow
import RegAlloc.Proofs.Pressure
import RegAlloc.Proofs.Reloads
import RegAlloc.Proofs.Canonical
import RegAlloc.Proofs.Pieces
import RegAlloc.Proofs.Cycles
import RegAlloc.Proofs.Exchanges
import RegAlloc.Proofs.Roster
import RegAlloc.Proofs.Shapes
