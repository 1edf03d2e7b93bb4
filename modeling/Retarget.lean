import Retarget.Allocation
import Retarget.Assembly
import Retarget.CommandLine.Arguments
import Retarget.CommandLine.Directory
import Retarget.CommandLine.Run
import Retarget.Decimal.Layout
import Retarget.Decimal.Shortest
import Retarget.Demo
import Retarget.Failure
import Retarget.Ir.Builder
import Retarget.Ir.Decoding
import Retarget.Ir.Encoding
import Retarget.Ir.Instruction
import Retarget.Ir.Module
import Retarget.Ir.Ty
import Retarget.Ir.Value
import Retarget.Json.Basic
import Retarget.Json.Fields
import Retarget.Json.Number
import Retarget.Json.Printer
import Retarget.Json.Reader
import Retarget.Legalization
import Retarget.LiveRange
import Retarget.Lowering.Basic
import Retarget.Lowering.Call
import Retarget.Lowering.Chunk
import Retarget.Lowering.Function
import Retarget.Lowering.Memory
import Retarget.Lowering.Module
import Retarget.Machine.Data
import Retarget.Machine.Frame
import Retarget.Machine.Function
import Retarget.Machine.Instruction
import Retarget.Machine.LowType
import Retarget.Machine.Opcode
import Retarget.Machine.Operand
import Retarget.Main
import Retarget.NativeCode
import Retarget.Pipeline
import Retarget.Proofs.Aliasing
import Retarget.Proofs.Assembly.Labels
import Retarget.Proofs.Assembly.Lines
import Retarget.Proofs.Banks.Allocation
import Retarget.Proofs.Banks.Classes
import Retarget.Proofs.Banks.Kinds
import Retarget.Proofs.Banks.Passes
import Retarget.Proofs.Bindings
import Retarget.Proofs.Building
import Retarget.Proofs.Checked
import Retarget.Proofs.CommandLine
import Retarget.Proofs.ControlFlow
import Retarget.Proofs.Convention.Agreement
import Retarget.Proofs.Convention.Allocated
import Retarget.Proofs.Convention.CalleeSaved
import Retarget.Proofs.Convention.Calls
import Retarget.Proofs.Convention.Delivery
import Retarget.Proofs.Convention.Fills
import Retarget.Proofs.Convention.Passing
import Retarget.Proofs.Convention.Renamed
import Retarget.Proofs.Convention.Saved
import Retarget.Proofs.Convention.Separation
import Retarget.Proofs.Convention.SetUps
import Retarget.Proofs.Convention.Windows
import Retarget.Proofs.Data.Images
import Retarget.Proofs.Data.Quoting
import Retarget.Proofs.Data.Scalars
import Retarget.Proofs.Encoding.Access
import Retarget.Proofs.Encoding.Bitmask
import Retarget.Proofs.Encoding.Constants
import Retarget.Proofs.Encoding.Immediates
import Retarget.Proofs.Encoding.Masks
import Retarget.Proofs.Encoding.Offsets
import Retarget.Proofs.Encoding.Room
import Retarget.Proofs.Encoding.Widths
import Retarget.Proofs.Execution.Availability
import Retarget.Proofs.Execution.Blocks
import Retarget.Proofs.Execution.Chains
import Retarget.Proofs.Execution.Circles
import Retarget.Proofs.Execution.Copies
import Retarget.Proofs.Execution.DeadCode
import Retarget.Proofs.Execution.Dominance
import Retarget.Proofs.Execution.Effects
import Retarget.Proofs.Execution.Memory
import Retarget.Proofs.Execution.Optimize
import Retarget.Proofs.Execution.Redundancy
import Retarget.Proofs.Execution.Refinement
import Retarget.Proofs.Execution.Semantics
import Retarget.Proofs.Execution.Simplifier
import Retarget.Proofs.Execution.Step
import Retarget.Proofs.Execution.Thinning
import Retarget.Proofs.Interchange.Instructions
import Retarget.Proofs.Interchange.Modules
import Retarget.Proofs.Interchange.Numbers
import Retarget.Proofs.Interchange.Records
import Retarget.Proofs.Interchange.Texts
import Retarget.Proofs.Interchange.Trees
import Retarget.Proofs.Legality.Compares
import Retarget.Proofs.Legality.Expansion
import Retarget.Proofs.Legality.FixedPoint
import Retarget.Proofs.Legality.Meaning
import Retarget.Proofs.Legality.Outcome
import Retarget.Proofs.Legality.Preservation
import Retarget.Proofs.Legality.Progress
import Retarget.Proofs.LinearLiveness
import Retarget.Proofs.LiveRange
import Retarget.Proofs.Lowering.Addresses
import Retarget.Proofs.Lowering.Backing
import Retarget.Proofs.Lowering.Copies
import Retarget.Proofs.Lowering.Defined
import Retarget.Proofs.Lowering.FrameObjects
import Retarget.Proofs.Lowering.Invariants
import Retarget.Proofs.Lowering.Operands
import Retarget.Proofs.Lowering.Placement
import Retarget.Proofs.Lowering.Produced
import Retarget.Proofs.Lowering.Straight
import Retarget.Proofs.Lowering.Successors
import Retarget.Proofs.Lowering.Temporaries
import Retarget.Proofs.Lowering.Values
import Retarget.Proofs.NamedRegisters
import Retarget.Proofs.Native.Compares
import Retarget.Proofs.Native.ConstantCompares
import Retarget.Proofs.Native.Constants
import Retarget.Proofs.Native.Conversions
import Retarget.Proofs.Native.Extensions
import Retarget.Proofs.Native.Loads
import Retarget.Proofs.Native.NarrowCompares
import Retarget.Proofs.Native.Platform
import Retarget.Proofs.Native.Processor
import Retarget.Proofs.Numbering.Passes
import Retarget.Proofs.RangeClasses
import Retarget.Proofs.ReturnMoves
import Retarget.Proofs.Scan
import Retarget.Proofs.Selection.Forms
import Retarget.Proofs.Selection.Fusion
import Retarget.Proofs.Selection.Insertions
import Retarget.Proofs.Selection.Walk
import Retarget.Proofs.Shape.Allocation
import Retarget.Proofs.Shape.Basic
import Retarget.Proofs.Shape.Legalization
import Retarget.Proofs.Shape.Lowering
import Retarget.Proofs.Shape.NativeCode
import Retarget.Proofs.Shape.Passes
import Retarget.Proofs.Shape.Pipeline
import Retarget.Proofs.Shape.Selection
import Retarget.Proofs.Stack.Balance
import Retarget.Proofs.Stack.Layout
import Retarget.Proofs.Symbols.Arguments
import Retarget.Proofs.Symbols.Compiled
import Retarget.Proofs.Symbols.Delivered
import Retarget.Proofs.Symbols.Emitted
import Retarget.Proofs.Symbols.Homes
import Retarget.RegisterClass
import Retarget.RegisterPool
import Retarget.Simplification
import Retarget.Target.AArch64
import Retarget.Target.AArch64.Legality
import Retarget.Target.AArch64.LogicalImmediate
import Retarget.Target.AArch64.Op
import Retarget.Target.AArch64.Registers
import Retarget.Target.AArch64.Selection
import Retarget.Target.Basic
import Retarget.Target.Convention
import Retarget.Target.Expansion
import Retarget.Target.Register
import Retarget.Target.Riscv
import Retarget.Target.Riscv.Legality
import Retarget.Target.Riscv.Op
import Retarget.Target.Riscv.Registers
import Retarget.Target.Riscv.Selection
import Retarget.Target.Site
import Retarget.Target.Template
import Retarget.Text.Character
import Retarget.Text.Quoted
import Retarget.Word
