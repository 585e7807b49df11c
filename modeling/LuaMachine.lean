import LuaMachine.Code.Compile
import LuaMachine.Code.Instruction
import LuaMachine.Code.Segment
import LuaMachine.Code.Symbol
import LuaMachine.Console.CommandLine
import LuaMachine.Console.Directory
import LuaMachine.Console.Program
import LuaMachine.Console.Prompt
import LuaMachine.Console.Session
import LuaMachine.Debug.Breakpoints
import LuaMachine.Debug.Front
import LuaMachine.Debug.Pause
import LuaMachine.Dump.Codec
import LuaMachine.Dump.Error
import LuaMachine.Dump.Function
import LuaMachine.Engine.Config
import LuaMachine.Engine.Execution
import LuaMachine.Engine.FunctionCache
import LuaMachine.Engine.Host
import LuaMachine.Engine.Lease
import LuaMachine.Engine.Pool
import LuaMachine.Engine.Statistics
import LuaMachine.Grammar.Reader
import LuaMachine.Grammar.Tree
import LuaMachine.Host.Object
import LuaMachine.Host.Probe
import LuaMachine.Library.Arguments
import LuaMachine.Library.Base
import LuaMachine.Library.Coroutines
import LuaMachine.Machine.Call
import LuaMachine.Machine.Error
import LuaMachine.Machine.Fault
import LuaMachine.Machine.Heap
import LuaMachine.Machine.Operators
import LuaMachine.Machine.Processor
import LuaMachine.Machine.Reentry
import LuaMachine.Machine.Run
import LuaMachine.Machine.Stack
import LuaMachine.Machine.Step
import LuaMachine.Machine.Variables
import LuaMachine.Machine.World
import LuaMachine.Main
import LuaMachine.Number.Basic
import LuaMachine.Number.Numeral
import LuaMachine.Number.Shortest
import LuaMachine.Operator
import LuaMachine.Proofs.Cancellation.Enclosure
import LuaMachine.Proofs.Cancellation.Propagation
import LuaMachine.Proofs.Cancellation.Reader
import LuaMachine.Proofs.Cancellation.Throughout
import LuaMachine.Proofs.Code.Compilation
import LuaMachine.Proofs.Code.Generation
import LuaMachine.Proofs.Code.Layout
import LuaMachine.Proofs.Code.Pieces
import LuaMachine.Proofs.Code.Statements
import LuaMachine.Proofs.Code.Verification
import LuaMachine.Proofs.Code.Verifier
import LuaMachine.Proofs.Coroutine.Continuing
import LuaMachine.Proofs.Coroutine.Conversation
import LuaMachine.Proofs.Coroutine.Instructions
import LuaMachine.Proofs.Coroutine.Orderly
import LuaMachine.Proofs.Coroutine.Resumption
import LuaMachine.Proofs.Coroutine.Serving
import LuaMachine.Proofs.Coroutine.Suspension
import LuaMachine.Proofs.Coroutine.Visits
import LuaMachine.Proofs.Coroutine.Yieldable
import LuaMachine.Proofs.Dump.Codec
import LuaMachine.Proofs.Dump.Function
import LuaMachine.Proofs.Dump.Roundtrip
import LuaMachine.Proofs.Dump.Streaming
import LuaMachine.Proofs.Dump.Truncation
import LuaMachine.Proofs.Dump.Writing
import LuaMachine.Proofs.Engine.Deeds
import LuaMachine.Proofs.Engine.Traffic
import LuaMachine.Proofs.Engine.Versions
import LuaMachine.Proofs.Machine.Activation
import LuaMachine.Proofs.Machine.Aside
import LuaMachine.Proofs.Machine.Calm
import LuaMachine.Proofs.Machine.Keeping
import LuaMachine.Proofs.Machine.Running
import LuaMachine.Proofs.Machine.Transparency
import LuaMachine.Proofs.Machine.Uniform
import LuaMachine.Proofs.Scope.Bounds
import LuaMachine.Proofs.Scope.Lexical
import LuaMachine.Proofs.Semantics.Chunk
import LuaMachine.Proofs.Semantics.Evaluation
import LuaMachine.Proofs.Semantics.Generated
import LuaMachine.Proofs.Semantics.Placement
import LuaMachine.Proofs.Semantics.Setting
import LuaMachine.Proofs.Semantics.Simulation
import LuaMachine.Proofs.Text.Utf8
import LuaMachine.Scope
import LuaMachine.Script.Load
import LuaMachine.Script.Session
import LuaMachine.Script.State
import LuaMachine.Source.Span
import LuaMachine.Source.Text
import LuaMachine.SyntaxError
import LuaMachine.Table
import LuaMachine.Text.Encoding
import LuaMachine.Text.Layout
import LuaMachine.Text.Digest
import LuaMachine.Text.Printable
import LuaMachine.Text.Quoted
import LuaMachine.Text.Utf8
import LuaMachine.Token.Basic
import LuaMachine.Token.Lexer
import LuaMachine.Token.Scanner
import LuaMachine.Toml.Document
import LuaMachine.Toml.Reader
import LuaMachine.Toml.Scalar
import LuaMachine.Value.Basic
import LuaMachine.Value.Identity
import LuaMachine.Value.Key
import LuaMachine.Value.Native
import LuaMachine.Value.Text
import LuaMachine.Proofs.Loops.Advance
import LuaMachine.Proofs.Loops.Bounded
import LuaMachine.Proofs.Loops.Inherited
import LuaMachine.Proofs.Engine.Creation
import LuaMachine.Proofs.Engine.Lookup
import LuaMachine.Proofs.Engine.Refusal
import LuaMachine.Proofs.Table.Entries
import LuaMachine.Proofs.Table.History
import LuaMachine.Proofs.Number.Order
import LuaMachine.Proofs.Table.Traversal
import LuaMachine.Proofs.Engine.Working
import LuaMachine.Proofs.Engine.Equipment
import LuaMachine.Proofs.Engine.Sharing
import LuaMachine.Proofs.Engine.Exclusion
import LuaMachine.Proofs.Engine.Generations
import LuaMachine.Proofs.Code.Attribution
import LuaMachine.Proofs.Script.Loading
import LuaMachine.Proofs.Token.Continuation
import LuaMachine.Proofs.Token.Passing
import LuaMachine.Proofs.Token.Positions
import LuaMachine.Proofs.Grammar.Constructs
import LuaMachine.Proofs.Grammar.Continuation
import LuaMachine.Proofs.Grammar.Locality
import LuaMachine.Proofs.Grammar.Precedence
import LuaMachine.Proofs.Code.Relocation
import LuaMachine.Proofs.Grammar.Targets
import LuaMachine.Proofs.Code.Acceptance
import LuaMachine.Proofs.Code.Shaping
import LuaMachine.Proofs.Code.Shapes
import LuaMachine.Proofs.Code.Control
import LuaMachine.Proofs.Flat.Values
import LuaMachine.Proofs.Flat.Frames
import LuaMachine.Proofs.Flat.Sifting
import LuaMachine.Proofs.Flat.Library
import LuaMachine.Proofs.Flat.Instructions
import LuaMachine.Proofs.Flat.Running
import LuaMachine.Proofs.Flat.Machine
import LuaMachine.Proofs.Flat.Reached
import LuaMachine.Proofs.Flat.Hosting
import LuaMachine.Proofs.Code.Blocks
import LuaMachine.Proofs.Code.AddressSpace
import LuaMachine.Proofs.Engine.Accounting
import LuaMachine.Proofs.Semantics.Assignment
import LuaMachine.Proofs.Capture.Place
import LuaMachine.Proofs.Capture.Scopes
import LuaMachine.Proofs.Capture.Expressions
import LuaMachine.Proofs.Capture.Statements
import LuaMachine.Proofs.Crossing.Unless
import LuaMachine.Proofs.Crossing.Steps
import LuaMachine.Proofs.Crossing.Regions
import LuaMachine.Proofs.Crossing.Expressions
import LuaMachine.Proofs.Loops.Numeric
import LuaMachine.Proofs.Lists.Elements
import LuaMachine.Proofs.Lists.Receivers
import LuaMachine.Proofs.Lists.Uses
import LuaMachine.Proofs.Lists.Adjustment
import LuaMachine.Proofs.Capture.Histories
import LuaMachine.Proofs.Capture.Instructions
import LuaMachine.Proofs.Capture.Machine
import LuaMachine.Proofs.Capture.Reached
import LuaMachine.Proofs.Capture.Variables
import LuaMachine.Proofs.Debug.Names
import LuaMachine.Proofs.Debug.Breakpoints
import LuaMachine.Proofs.Debug.Listening
import LuaMachine.Proofs.Machine.Enduring
import LuaMachine.Proofs.Loops.Aftermath
import LuaMachine.Proofs.Loops.Order
import LuaMachine.Proofs.Loops.Presence
import LuaMachine.Proofs.Debug.Stepping
import LuaMachine.Proofs.Machine.Idle
import LuaMachine.Proofs.Engine.Sessions
import LuaMachine.Proofs.Library.Integers
import LuaMachine.Proofs.Token.Spelling
import LuaMachine.Proofs.Token.Access
import LuaMachine.Proofs.Grammar.Totality
import LuaMachine.Proofs.Token.Numerals
import LuaMachine.Proofs.Grammar.Fields
