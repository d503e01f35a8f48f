import Tapecode.Word
import Tapecode.Position
import Tapecode.Token
import Tapecode.Instruction
import Tapecode.Text.Columns
import Tapecode.Text.Utf8
import Tapecode.Program
import Tapecode.Nest
import Tapecode.Builder
import Tapecode.Optimize
import Tapecode.Parse
import Tapecode.Bytecode
import Tapecode.Bytecode.Listing
import Tapecode.Streams
import Tapecode.Console
import Tapecode.Machine
import Tapecode.Error
import Tapecode.Journal
import Tapecode.Diagnostic
import Tapecode.CommandLine
import Tapecode.SystemError
import Tapecode.FileTree
import Tapecode.Session
import Tapecode.Main
import Tapecode.Proofs.Structured
import Tapecode.Proofs.Execution
import Tapecode.Proofs.Compilation
import Tapecode.Proofs.Refinement
import Tapecode.Proofs.Rewriting
import Tapecode.Proofs.Balance
import Tapecode.Proofs.Replay
import Tapecode.Proofs.Simplification
import Tapecode.Proofs.Optimization
import Tapecode.Proofs.Language
import Tapecode.Proofs.Parsing
import Tapecode.Proofs.Brackets
import Tapecode.Proofs.Reading
import Tapecode.Proofs.Soundness
import Tapecode.Proofs.NormalForm
import Tapecode.Proofs.Building
import Tapecode.Proofs.Layout
import Tapecode.Proofs.Visits
import Tapecode.Proofs.Termination
import Tapecode.Proofs.Warnings
import Tapecode.Proofs.Expansion
import Tapecode.Proofs.Decompilation
import Tapecode.Proofs.InternalErrors
import Tapecode.Proofs.Delivery
import Tapecode.Proofs.Output
import Tapecode.Proofs.Implementation
import Tapecode.Proofs.Bounds
import Tapecode.Proofs.TapeSize
import Tapecode.Proofs.StepLimit
import Tapecode.Proofs.TornWrites
import Tapecode.Proofs.Matching
import Tapecode.Proofs.Encoding
import Tapecode.Proofs.Agreement
import Tapecode.Proofs.Irreducible
import Tapecode.Proofs.RoundTrip
import Tapecode.Proofs.Batches
import Tapecode.Proofs.Positions
import Tapecode.Proofs.FlatBuilder
import Tapecode.Proofs.OpenLoops
import Tapecode.Proofs.Protection
import Tapecode.Proofs.Listing
import Tapecode.Proofs.Overflow
import Tapecode.Proofs.Journal
import Tapecode.Proofs.FileTree
