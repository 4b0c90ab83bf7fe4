import WasmVm.Body.Flat
import WasmVm.Body.Instr
import WasmVm.Body.Item
import WasmVm.Body.Nesting
import WasmVm.Body.Node
import WasmVm.Cli
import WasmVm.ConstExpr
import WasmVm.Cursor
import WasmVm.Debugger.Command
import WasmVm.Debugger.Script
import WasmVm.Debugger.Session
import WasmVm.Debugger.Terminal
import WasmVm.Decimal.Literal
import WasmVm.Decimal.Shortest
import WasmVm.Error
import WasmVm.Ieee.Arithmetic
import WasmVm.Ieee.Format
import WasmVm.Ieee.Rounding
import WasmVm.Instance
import WasmVm.Leb128
import WasmVm.Listing
import WasmVm.LittleEndian
import WasmVm.Machine.Access
import WasmVm.Machine.Action
import WasmVm.Machine.Frame
import WasmVm.Machine.Host
import WasmVm.Machine.Observer
import WasmVm.Machine.Run
import WasmVm.Machine.Store
import WasmVm.Main
import WasmVm.Memory
import WasmVm.Module.Basic
import WasmVm.Module.Decode
import WasmVm.Module.Names
import WasmVm.Numeric.Execute
import WasmVm.Numeric.Float
import WasmVm.Numeric.Integer
import WasmVm.Numeric.Operation
import WasmVm.Opcode
import WasmVm.Proofs.Body.Encoding
import WasmVm.Proofs.Body.Flattening
import WasmVm.Proofs.Body.Grammar
import WasmVm.Proofs.Body.Structuring
import WasmVm.Proofs.Constants.Agreement
import WasmVm.Proofs.Constants.Reads
import WasmVm.Proofs.Constants.SelfContained
import WasmVm.Proofs.Constants.Twins
import WasmVm.Proofs.Control.FlatMachine
import WasmVm.Proofs.Control.Placement
import WasmVm.Proofs.Control.Position
import WasmVm.Proofs.Control.Refinement
import WasmVm.Proofs.Control.Simulation
import WasmVm.Proofs.Control.Termination
import WasmVm.Proofs.Control.WellNested
import WasmVm.Proofs.Debugging.Pauses
import WasmVm.Proofs.Debugging.Stepping
import WasmVm.Proofs.Decoding.Checked
import WasmVm.Proofs.Decoding.CheckedBodies
import WasmVm.Proofs.Decoding.CheckedReads
import WasmVm.Proofs.Decoding.CheckedSections
import WasmVm.Proofs.Decoding.Consistency
import WasmVm.Proofs.Decoding.Constants
import WasmVm.Proofs.Decoding.Encoded
import WasmVm.Proofs.Decoding.Format
import WasmVm.Proofs.Decoding.FunctionNames
import WasmVm.Proofs.Decoding.Indices
import WasmVm.Proofs.Decoding.Initializers
import WasmVm.Proofs.Decoding.Locals
import WasmVm.Proofs.Decoding.Onward
import WasmVm.Proofs.Decoding.Origins
import WasmVm.Proofs.Decoding.Parallel
import WasmVm.Proofs.Decoding.Questions
import WasmVm.Proofs.Decoding.RoundTrip
import WasmVm.Proofs.Decoding.Safety
import WasmVm.Proofs.Decoding.Sections
import WasmVm.Proofs.Decoding.Skipping
import WasmVm.Proofs.Decoding.Termination
import WasmVm.Proofs.Decoding.Wrapping
import WasmVm.Proofs.Globals.Cells
import WasmVm.Proofs.Globals.Lifecycle
import WasmVm.Proofs.Globals.Writes
import WasmVm.Proofs.Linking.Arguments
import WasmVm.Proofs.Linking.Binding
import WasmVm.Proofs.Linking.Exports
import WasmVm.Proofs.Listing.Annotations
import WasmVm.Proofs.Listing.Correspondence
import WasmVm.Proofs.Listing.Points
import WasmVm.Proofs.Machine.Calls
import WasmVm.Proofs.Machine.Coverage
import WasmVm.Proofs.Machine.Depth
import WasmVm.Proofs.Machine.Events
import WasmVm.Proofs.Machine.Fetches
import WasmVm.Proofs.Machine.History
import WasmVm.Proofs.Machine.HostCalls
import WasmVm.Proofs.Machine.Sites
import WasmVm.Proofs.Machine.Step
import WasmVm.Proofs.Machine.Traps
import WasmVm.Proofs.Memory.BoundedBytes
import WasmVm.Proofs.Memory.Instantiation
import WasmVm.Proofs.Memory.LoadStore
import WasmVm.Proofs.Memory.Segments
import WasmVm.Proofs.Numeric.Arithmetic
import WasmVm.Proofs.Numeric.Integers
import WasmVm.Proofs.Observing.Erasure
import WasmVm.Proofs.Observing.Hooks
import WasmVm.Proofs.Observing.Nesting
import WasmVm.Proofs.Observing.Noninterference
import WasmVm.Proofs.Observing.Projection
import WasmVm.Proofs.Observing.Sights
import WasmVm.Proofs.Reading.Exact
import WasmVm.Proofs.Reading.Integers
import WasmVm.Proofs.Reading.Numbers
import WasmVm.Proofs.Reading.Overflow
import WasmVm.Proofs.Reading.Views
import WasmVm.Proofs.Text.Utf8
import WasmVm.Proofs.Typing.Execution
import WasmVm.Proofs.Typing.Frames
import WasmVm.Proofs.Typing.Instances
import WasmVm.Proofs.Typing.Operands
import WasmVm.Proofs.Typing.Rules
import WasmVm.Proofs.Typing.Soundness
import WasmVm.Stack
import WasmVm.Text.Utf8
import WasmVm.Value
