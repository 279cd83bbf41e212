import RegisterCompiler.CommandLine
import RegisterCompiler.Compiler.Compiled
import RegisterCompiler.Compiler.Error
import RegisterCompiler.Compiler.Lowering
import RegisterCompiler.Compiler.Session
import RegisterCompiler.Failure
import RegisterCompiler.Machine.Arithmetic
import RegisterCompiler.Machine.Host
import RegisterCompiler.Machine.Run
import RegisterCompiler.Machine.State
import RegisterCompiler.Machine.Step
import RegisterCompiler.Main
import RegisterCompiler.Number.Binary64
import RegisterCompiler.Number.Shortest
import RegisterCompiler.Program.Comparison
import RegisterCompiler.Program.Operation
import RegisterCompiler.Program.Parser
import RegisterCompiler.Program.Printer
import RegisterCompiler.Program.Register
import RegisterCompiler.Program.Tree
import RegisterCompiler.Proofs.Assembly.Addresses
import RegisterCompiler.Proofs.Assembly.Bench
import RegisterCompiler.Proofs.Assembly.Buffer
import RegisterCompiler.Proofs.Assembly.ReadBack
import RegisterCompiler.Proofs.Assembly.Transcript
import RegisterCompiler.Proofs.Backpatching
import RegisterCompiler.Proofs.ControlFlow.Chunks
import RegisterCompiler.Proofs.ControlFlow.Integrity
import RegisterCompiler.Proofs.ControlFlow.Targets
import RegisterCompiler.Proofs.Decoding
import RegisterCompiler.Proofs.Execution.Branching
import RegisterCompiler.Proofs.Execution.Carried
import RegisterCompiler.Proofs.Execution.Containment
import RegisterCompiler.Proofs.Execution.Division
import RegisterCompiler.Proofs.Execution.Frames
import RegisterCompiler.Proofs.Execution.HostCalls
import RegisterCompiler.Proofs.Execution.Immediates
import RegisterCompiler.Proofs.Execution.Loading
import RegisterCompiler.Proofs.Execution.Meaning
import RegisterCompiler.Proofs.Execution.Operations
import RegisterCompiler.Proofs.Execution.Path
import RegisterCompiler.Proofs.Execution.Placed
import RegisterCompiler.Proofs.Execution.Preservation
import RegisterCompiler.Proofs.Execution.Quotients
import RegisterCompiler.Proofs.Execution.Rounds
import RegisterCompiler.Proofs.Execution.Sequences
import RegisterCompiler.Proofs.Execution.Simulation
import RegisterCompiler.Proofs.Execution.Standard
import RegisterCompiler.Proofs.Execution.Transparency
import RegisterCompiler.Proofs.Execution.Words
import RegisterCompiler.Proofs.Faults
import RegisterCompiler.Proofs.Joining.Moved
import RegisterCompiler.Proofs.Joining.Programs
import RegisterCompiler.Proofs.Joining.Tokens
import RegisterCompiler.Proofs.Layout.Piece
import RegisterCompiler.Proofs.Layout.Resolve
import RegisterCompiler.Proofs.Layout.TwoPass
import RegisterCompiler.Proofs.Lexing.Gaps
import RegisterCompiler.Proofs.Lexing.Lexeme
import RegisterCompiler.Proofs.Lexing.Located
import RegisterCompiler.Proofs.Lexing.Lossless
import RegisterCompiler.Proofs.Lexing.Progress
import RegisterCompiler.Proofs.Lexing.Reserved
import RegisterCompiler.Proofs.Lexing.Rows
import RegisterCompiler.Proofs.Lexing.Scanning
import RegisterCompiler.Proofs.Lexing.Spelling
import RegisterCompiler.Proofs.Lexing.Tiling
import RegisterCompiler.Proofs.Lexing.Utf8
import RegisterCompiler.Proofs.Listing.Consumed
import RegisterCompiler.Proofs.Listing.Coverage
import RegisterCompiler.Proofs.Listing.Labels
import RegisterCompiler.Proofs.Listing.Names
import RegisterCompiler.Proofs.Listing.Truncated
import RegisterCompiler.Proofs.Parsing.Accepted
import RegisterCompiler.Proofs.Parsing.Ended
import RegisterCompiler.Proofs.Parsing.Grammar
import RegisterCompiler.Proofs.Parsing.Lookahead
import RegisterCompiler.Proofs.Parsing.Places
import RegisterCompiler.Proofs.Parsing.Reading
import RegisterCompiler.Proofs.Parsing.Streaming
import RegisterCompiler.Proofs.Parsing.Unambiguous
import RegisterCompiler.Proofs.Positions.Causes
import RegisterCompiler.Proofs.Positions.Compiling
import RegisterCompiler.Proofs.Positions.Parsing
import RegisterCompiler.Proofs.Positions.SameKinds
import RegisterCompiler.Proofs.Positions.Unplaced
import RegisterCompiler.Proofs.Printing.Headings
import RegisterCompiler.Proofs.Printing.Outline
import RegisterCompiler.Proofs.Printing.Words
import RegisterCompiler.Proofs.Reading.Cursor
import RegisterCompiler.Proofs.Reading.Tokens
import RegisterCompiler.Proofs.Rejection
import RegisterCompiler.Proofs.Session.Account
import RegisterCompiler.Proofs.Session.Accounting
import RegisterCompiler.Proofs.Session.Actions
import RegisterCompiler.Proofs.Session.Bodies
import RegisterCompiler.Proofs.Session.Callees
import RegisterCompiler.Proofs.Session.Extended
import RegisterCompiler.Proofs.Session.Holding
import RegisterCompiler.Proofs.Session.Independence
import RegisterCompiler.Proofs.Session.LeftOpen
import RegisterCompiler.Proofs.Session.OneArmed
import RegisterCompiler.Proofs.Session.OpenHoles
import RegisterCompiler.Proofs.Session.Outcome
import RegisterCompiler.Proofs.Session.Placing
import RegisterCompiler.Proofs.Session.Program
import RegisterCompiler.Proofs.Session.Requests
import RegisterCompiler.Proofs.Session.Stranding
import RegisterCompiler.Proofs.Session.Written
import RegisterCompiler.Proofs.Word
import RegisterCompiler.Source.DeviceLexer
import RegisterCompiler.Source.Lexer
import RegisterCompiler.Source.Position
import RegisterCompiler.Source.Reader
import RegisterCompiler.Source.Token
import RegisterCompiler.Text.Escape
import RegisterCompiler.Text.Hex
import RegisterCompiler.Text.Lossy
import RegisterCompiler.X64.Assembler
import RegisterCompiler.X64.ConditionCode
import RegisterCompiler.X64.Decoder
import RegisterCompiler.X64.Instruction
import RegisterCompiler.X64.Listing
import RegisterCompiler.X64.Register
import RegisterCompiler.X64.Sequence
