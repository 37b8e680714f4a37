import TensorAsm.Allocator
import TensorAsm.Arguments
import TensorAsm.Assembly
import TensorAsm.Binary64
import TensorAsm.Circuit.Basic
import TensorAsm.Circuit.Order
import TensorAsm.Circuit.Reader
import TensorAsm.CommandLine
import TensorAsm.Compilation
import TensorAsm.Config
import TensorAsm.Decimal
import TensorAsm.Emitter.Node
import TensorAsm.Emitter.State
import TensorAsm.Execution
import TensorAsm.Fault
import TensorAsm.Field
import TensorAsm.FileTree
import TensorAsm.Instruction
import TensorAsm.Json
import TensorAsm.Json.Number
import TensorAsm.Json.Reader
import TensorAsm.Layout
import TensorAsm.Log
import TensorAsm.Lowering.Checks
import TensorAsm.Lowering.Plan
import TensorAsm.Lowering.Step
import TensorAsm.Machine
import TensorAsm.Main
import TensorAsm.MemoryTable
import TensorAsm.Numeral
import TensorAsm.Ordered
import TensorAsm.Platform
import TensorAsm.Pipeline.Options
import TensorAsm.Pipeline.Pass
import TensorAsm.Pipeline.Run
import TensorAsm.Pipeline.Work
import TensorAsm.Program
import TensorAsm.ProgramText
import TensorAsm.Publish
import TensorAsm.Quantity
import TensorAsm.ReplayTool
import TensorAsm.Runs
import TensorAsm.Shape
import TensorAsm.Skeleton
import TensorAsm.Table.Basic
import TensorAsm.Table.Breakpoints
import TensorAsm.Text.Blank
import TensorAsm.Text.Cased
import TensorAsm.Text.CodePoints
import TensorAsm.Text.Digit
import TensorAsm.Text.Bytes
import TensorAsm.Text.Half
import TensorAsm.Text.Lines
import TensorAsm.Text.Lower
import TensorAsm.Text.Printable
import TensorAsm.Text.Quoted
import TensorAsm.Witness
import TensorAsm.Proofs.Addresses
import TensorAsm.Proofs.Allocations
import TensorAsm.Proofs.Loading
import TensorAsm.Proofs.Nesting
import TensorAsm.Proofs.Order
import TensorAsm.Proofs.Tables
import TensorAsm.Proofs.Stateful
import TensorAsm.Proofs.Emission
import TensorAsm.Proofs.Templates
import TensorAsm.Proofs.Lowerings
import TensorAsm.Proofs.Plans
import TensorAsm.Proofs.Scopes
import TensorAsm.Proofs.Assignments
import TensorAsm.Proofs.Refinement
import TensorAsm.Proofs.Journals
import TensorAsm.Proofs.Requests
import TensorAsm.Proofs.Recording
import TensorAsm.Proofs.RefinedElements
import TensorAsm.Proofs.RefinedNodes
import TensorAsm.Proofs.RefinedPrograms
import TensorAsm.Proofs.SingleAssignment
import TensorAsm.Proofs.Meaning
import TensorAsm.Proofs.Derivation
import TensorAsm.Proofs.Contents
import TensorAsm.Proofs.Replay
import TensorAsm.Proofs.Soundness
import TensorAsm.Proofs.Ranges
import TensorAsm.Proofs.Sources
import TensorAsm.Proofs.Image
import TensorAsm.Proofs.Independence
import TensorAsm.Proofs.Numerals
import TensorAsm.Proofs.InstructionText
import TensorAsm.Proofs.Comments
import TensorAsm.Proofs.ProgramLines
import TensorAsm.Proofs.RoundTrip
import TensorAsm.Proofs.Acyclicity
import TensorAsm.Proofs.CanonicalOrder
import TensorAsm.Proofs.Cycles
import TensorAsm.Proofs.Descriptions
import TensorAsm.Proofs.Outcomes
import TensorAsm.Proofs.Outline
import TensorAsm.Proofs.OutlineSteps
import TensorAsm.Proofs.Refusals
import TensorAsm.Proofs.WitnessFaults
import TensorAsm.Proofs.Faults
import TensorAsm.Proofs.Recovery
import TensorAsm.Proofs.OrderInvariance
import TensorAsm.Proofs.Strictness
import TensorAsm.Proofs.Files
import TensorAsm.Proofs.Moves
import TensorAsm.Proofs.Transactions
import TensorAsm.Proofs.Publishing
import TensorAsm.Proofs.Passes
import TensorAsm.Proofs.CommandRuns
import TensorAsm.Proofs.TableText
import TensorAsm.Proofs.ReplayAgreement
import TensorAsm.Proofs.Pairing
import TensorAsm.Proofs.Lockstep
import TensorAsm.Proofs.TwinPlans
import TensorAsm.Proofs.Valuation
import TensorAsm.Proofs.Relocation
import TensorAsm.Proofs.CellMaps
import TensorAsm.Proofs.Placement
import TensorAsm.Proofs.Blame
import TensorAsm.Proofs.BlockRuns
import TensorAsm.Proofs.Reductions
import TensorAsm.Proofs.Convolution
import TensorAsm.Proofs.ConvolutionRuns
import TensorAsm.Proofs.Memoization
import TensorAsm.Proofs.Rectification
import TensorAsm.Proofs.Contractions
import TensorAsm.Proofs.Broadcasting
import TensorAsm.Proofs.Elementwise
import TensorAsm.Proofs.NumeralReading
import TensorAsm.Proofs.TableRoundTrip
import TensorAsm.Proofs.Listings
import TensorAsm.Proofs.WitnessValues
import TensorAsm.Proofs.Interruptions
import TensorAsm.Proofs.FieldValues
import TensorAsm.Proofs.IdleCalls
import TensorAsm.Proofs.Renaming
import TensorAsm.Proofs.RenamedDrafts
import TensorAsm.Proofs.RenamedPlans
import TensorAsm.Proofs.Labels
import TensorAsm.Proofs.Rounding
import TensorAsm.Proofs.Skeletons
