import BinaryMachine.Catalogue
import BinaryMachine.CommandLine.Options
import BinaryMachine.CommandLine.Run
import BinaryMachine.Encoding
import BinaryMachine.Failure
import BinaryMachine.Files
import BinaryMachine.History
import BinaryMachine.Instruction
import BinaryMachine.Json.Form
import BinaryMachine.Json.History
import BinaryMachine.Json.Instruction
import BinaryMachine.Json.Program
import BinaryMachine.Json.Quoted
import BinaryMachine.Json.Scalar
import BinaryMachine.Json.Shape
import BinaryMachine.Json.Token
import BinaryMachine.Loading
import BinaryMachine.Machine
import BinaryMachine.Main
import BinaryMachine.Program
import BinaryMachine.Proofs.Catalogue.Files
import BinaryMachine.Proofs.Catalogue.Unary
import BinaryMachine.Proofs.CommandLine.Choices
import BinaryMachine.Proofs.CommandLine.DebugText
import BinaryMachine.Proofs.CommandLine.Displays
import BinaryMachine.Proofs.CommandLine.Inference
import BinaryMachine.Proofs.CommandLine.MarkColumn
import BinaryMachine.Proofs.CommandLine.Reports
import BinaryMachine.Proofs.CommandLine.Sources
import BinaryMachine.Proofs.CommandLine.Spellings
import BinaryMachine.Proofs.CommandLine.Words
import BinaryMachine.Proofs.Encoding.Grammar
import BinaryMachine.Proofs.Encoding.InstructionList
import BinaryMachine.Proofs.Encoding.InstructionText
import BinaryMachine.Proofs.Json.Exchange
import BinaryMachine.Proofs.Json.Grammar
import BinaryMachine.Proofs.Json.HistoryText
import BinaryMachine.Proofs.Json.Ids
import BinaryMachine.Proofs.Json.Lexing
import BinaryMachine.Proofs.Json.Lossless
import BinaryMachine.Proofs.Json.Pretty
import BinaryMachine.Proofs.Json.Record
import BinaryMachine.Proofs.Json.RoundTrip
import BinaryMachine.Proofs.Json.Scanning
import BinaryMachine.Proofs.Loading.Directory
import BinaryMachine.Proofs.Loading.Paths
import BinaryMachine.Proofs.Machine.BoundedRun
import BinaryMachine.Proofs.Machine.Calls
import BinaryMachine.Proofs.Machine.ClosedTable
import BinaryMachine.Proofs.Machine.Construction
import BinaryMachine.Proofs.Machine.Course
import BinaryMachine.Proofs.Machine.Executions
import BinaryMachine.Proofs.Machine.LargerTable
import BinaryMachine.Proofs.Machine.Lockstep
import BinaryMachine.Proofs.Machine.Log
import BinaryMachine.Proofs.Machine.MaterialisedBlanks
import BinaryMachine.Proofs.Machine.Mirror
import BinaryMachine.Proofs.Machine.Phase
import BinaryMachine.Proofs.Machine.Renaming
import BinaryMachine.Proofs.Machine.Replay
import BinaryMachine.Proofs.Machine.Textbook
import BinaryMachine.Proofs.Segments.Leftmost
import BinaryMachine.Proofs.StateId.Counting
import BinaryMachine.Proofs.StateId.Order
import BinaryMachine.Proofs.StateId.Value
import BinaryMachine.Proofs.Tape.Chain
import BinaryMachine.Proofs.Tape.Commutation
import BinaryMachine.Proofs.Tape.Content
import BinaryMachine.Proofs.Tape.Identity
import BinaryMachine.Proofs.Tape.Interleaving
import BinaryMachine.Proofs.Tape.Layout
import BinaryMachine.Proofs.Tape.Line
import BinaryMachine.Proofs.Tape.Mirror
import BinaryMachine.Proofs.Tape.Permanence
import BinaryMachine.Proofs.Tape.Refinement
import BinaryMachine.Proofs.Tape.Text
import BinaryMachine.Proofs.Tape.Walks
import BinaryMachine.Proofs.TransitionTable.FirstCollision
import BinaryMachine.Segments
import BinaryMachine.StateId
import BinaryMachine.Symbol
import BinaryMachine.Tape.Basic
import BinaryMachine.Tape.Head
import BinaryMachine.Tape.Session
import BinaryMachine.TransitionTable
