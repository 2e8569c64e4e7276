import WasmEngine.Binary.Error
import WasmEngine.Binary.Leb128
import WasmEngine.Binary.NameSection
import WasmEngine.Binary.Utf8
import WasmEngine.Cell
import WasmEngine.Code
import WasmEngine.ControlFlow.Catalog
import WasmEngine.ControlFlow.Graph
import WasmEngine.Embedding
import WasmEngine.Execution.Host
import WasmEngine.Execution.Journal
import WasmEngine.Execution.Machine
import WasmEngine.Execution.Run
import WasmEngine.Execution.Step
import WasmEngine.Frame
import WasmEngine.Hexadecimal
import WasmEngine.IndexMap
import WasmEngine.Instruction
import WasmEngine.Instruction.Opcode
import WasmEngine.Instrumentation.Coverage
import WasmEngine.Instrumentation.Filter
import WasmEngine.Instrumentation.Probe
import WasmEngine.Linking.ConstantExpression
import WasmEngine.Linking.Error
import WasmEngine.Linking.Imports
import WasmEngine.Linking.Instantiate
import WasmEngine.Logging
import WasmEngine.Module
import WasmEngine.Numeric.Arithmetic
import WasmEngine.Numeric.Conversion
import WasmEngine.Numeric.Format
import WasmEngine.Numeric.Integer
import WasmEngine.Pattern.Matching
import WasmEngine.Pattern.Node
import WasmEngine.Pattern.Reading
import WasmEngine.Pattern.Token
import WasmEngine.Store
import WasmEngine.Store.Memory
import WasmEngine.Trap
import WasmEngine.Types
import WasmEngine.Value
import WasmEngine.Proofs.ControlFlow.Blocks
import WasmEngine.Proofs.ControlFlow.Exactness
import WasmEngine.Proofs.ControlFlow.Flow
import WasmEngine.Proofs.Embedding.Blindness
import WasmEngine.Proofs.Embedding.Discretion
import WasmEngine.Proofs.Execution.FrameContents
import WasmEngine.Proofs.Execution.Frames
import WasmEngine.Proofs.Execution.Observation
import WasmEngine.Proofs.Instrumentation.Coverage
import WasmEngine.Proofs.Instrumentation.FrameEdges
import WasmEngine.Proofs.Instrumentation.Installation
import WasmEngine.Proofs.Instrumentation.PlainTrace
import WasmEngine.Proofs.Instrumentation.Reports
import WasmEngine.Proofs.Instrumentation.Simulation
import WasmEngine.Proofs.Instrumentation.Transparency
import WasmEngine.Proofs.Instrumentation.View
import WasmEngine.Proofs.Instrumentation.Wrapping
import WasmEngine.Proofs.Linking.Allocation
import WasmEngine.Proofs.Typing.Assertions
import WasmEngine.Proofs.Typing.Frame
import WasmEngine.Proofs.Typing.Numeric
import WasmEngine.Proofs.Typing.Rules
import WasmEngine.Proofs.Typing.Soundness
import WasmEngine.Proofs.Typing.Step
import WasmEngine.Proofs.Typing.Store
import WasmEngine.Proofs.Execution.Stages
import WasmEngine.Proofs.Execution.Traps
import WasmEngine.Proofs.Linking.Checks
import WasmEngine.Proofs.Linking.Atomicity
import WasmEngine.Proofs.Execution.Footprint
import WasmEngine.Proofs.Execution.Meter
import WasmEngine.Proofs.Execution.Threshold
import WasmEngine.Proofs.Execution.Metering
import WasmEngine.Proofs.Execution.Depth
import WasmEngine.Proofs.Execution.Fuel
import WasmEngine.Proofs.Execution.Budget
import WasmEngine.Proofs.Execution.Termination
import WasmEngine.Proofs.Linking.Changes
import WasmEngine.Proofs.Linking.History
import WasmEngine.Proofs.Embedding.Order
import WasmEngine.Proofs.Linking.Conformance
import WasmEngine.Proofs.Linking.Layout
import WasmEngine.Proofs.Linking.Exports
import WasmEngine.Proofs.Linking.IndexSpaces
import WasmEngine.Proofs.Linking.Limits
import WasmEngine.Proofs.Linking.Provision
import WasmEngine.Proofs.Linking.Resolution
import WasmEngine.Proofs.Execution.Routes
import WasmEngine.Proofs.IndexMap
import WasmEngine.Proofs.Binary.Leb128
import WasmEngine.Proofs.Binary.Utf8
import WasmEngine.Proofs.Binary.Readers
import WasmEngine.Proofs.Binary.Subsections
import WasmEngine.Proofs.Binary.Canonical
import WasmEngine.Proofs.Binary.Entries
import WasmEngine.Proofs.Binary.NameSection
import WasmEngine.Proofs.Execution.Configurations
import WasmEngine.Proofs.Execution.Interruption
import WasmEngine.Proofs.Store.Contents
import WasmEngine.Proofs.Execution.Accesses
import WasmEngine.Proofs.Execution.Growth
import WasmEngine.Proofs.Linking.Segments
import WasmEngine.Proofs.ControlFlow.Partition
import WasmEngine.Proofs.Binary.Numerals
import WasmEngine.Proofs.Binary.Composition
import WasmEngine.Proofs.Binary.ScalarValues
import WasmEngine.Proofs.Numeric.Denotation
import WasmEngine.Proofs.Numeric.Truncation
import WasmEngine.Proofs.Numeric.Division
import WasmEngine.Proofs.Numeric.Extrema
import WasmEngine.Proofs.Numeric.Encoding
import WasmEngine.Proofs.Numeric.Rounding
import WasmEngine.Proofs.Linking.ConstantExpression
import WasmEngine.Proofs.Linking.Agreement
import WasmEngine.Proofs.Instrumentation.Sites
import WasmEngine.Proofs.Execution.FrameStorage
import WasmEngine.Proofs.ControlFlow.Catalog
import WasmEngine.Proofs.Instrumentation.CachedGraphs
