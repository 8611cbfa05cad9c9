import LuaBytecode.Arithmetic
import LuaBytecode.Binary.Bytes
import LuaBytecode.Binary.Cursor
import LuaBytecode.Binary.Encoder
import LuaBytecode.Binary.Fault
import LuaBytecode.Binary64
import LuaBytecode.Chunk.Basic
import LuaBytecode.Chunk.Decode
import LuaBytecode.Chunk.Encode
import LuaBytecode.CommandLine
import LuaBytecode.Constant
import LuaBytecode.Decimal.Layout
import LuaBytecode.Decimal.Shortest
import LuaBytecode.Fault
import LuaBytecode.FileTree
import LuaBytecode.Header
import LuaBytecode.Heap
import LuaBytecode.Host.Basic
import LuaBytecode.Host.Library
import LuaBytecode.Instruction
import LuaBytecode.Json.Basic
import LuaBytecode.Json.Bridge
import LuaBytecode.Json.Numeral
import LuaBytecode.Json.Printer
import LuaBytecode.Json.Reader
import LuaBytecode.Listing
import LuaBytecode.Machine.Execute
import LuaBytecode.Machine.Frame
import LuaBytecode.Machine.Step
import LuaBytecode.Main
import LuaBytecode.Number
import LuaBytecode.Opcode
import LuaBytecode.Prototype
import LuaBytecode.Table
import LuaBytecode.Text.Combining
import LuaBytecode.Text.Hex
import LuaBytecode.Text.Invisible
import LuaBytecode.Text.Quoted
import LuaBytecode.Value
import LuaBytecode.Proofs.Format
import LuaBytecode.Proofs.Recognition
import LuaBytecode.Proofs.Writing
import LuaBytecode.Proofs.RoundTrip
import LuaBytecode.Proofs.Limits
import LuaBytecode.Proofs.Actions
import LuaBytecode.Proofs.Correspondence
import LuaBytecode.Proofs.Simulation
import LuaBytecode.Proofs.Reload
import LuaBytecode.Proofs.Effects
import LuaBytecode.Proofs.Atomicity
import LuaBytecode.Proofs.Activations
import LuaBytecode.Proofs.Isolation
import LuaBytecode.Proofs.Calls
import LuaBytecode.Proofs.Capture
import LuaBytecode.Proofs.Prefix
import LuaBytecode.Proofs.Reencoding
import LuaBytecode.Proofs.Faults
import LuaBytecode.Proofs.Budget
import LuaBytecode.Proofs.Depth
import LuaBytecode.Proofs.Forward
import LuaBytecode.Proofs.Termination
import LuaBytecode.Proofs.InstructionFields
import LuaBytecode.Proofs.ListingSums
import LuaBytecode.Proofs.LineTables
import LuaBytecode.Proofs.Entries
import LuaBytecode.Proofs.History
import LuaBytecode.Proofs.FieldOrder
import LuaBytecode.Proofs.JsonRoundTrip
import LuaBytecode.Proofs.ArraysAndObjects
import LuaBytecode.Proofs.Height
import LuaBytecode.Proofs.Stripping
import LuaBytecode.Proofs.Nesting
import LuaBytecode.Proofs.Rounding
import LuaBytecode.Proofs.JsonNormalForm
import LuaBytecode.Proofs.Products
import LuaBytecode.Proofs.NumberText
import LuaBytecode.Proofs.ShortestDecimal
import LuaBytecode.Proofs.JsonText
import LuaBytecode.Proofs.TextRoundTrip
import LuaBytecode.Proofs.DecodeFaults
import LuaBytecode.Proofs.HeaderFields
import LuaBytecode.Proofs.Footprint
import LuaBytecode.Proofs.Varuints
import LuaBytecode.Proofs.BulkReads
import LuaBytecode.Proofs.RunFaults
import LuaBytecode.Proofs.ExactValues
import LuaBytecode.Proofs.NumberOrder
import LuaBytecode.Proofs.RawEquality
import LuaBytecode.Proofs.IntegerArithmetic
import LuaBytecode.Proofs.SpecialForms
import LuaBytecode.Proofs.CountedLoops
import LuaBytecode.Proofs.Annotations
import LuaBytecode.Proofs.Lookups
