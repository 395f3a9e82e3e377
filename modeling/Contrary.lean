import Contrary.Codes
import Contrary.Main
import Contrary.Proofs.Blocks
import Contrary.Proofs.Display.Simulation
import Contrary.Proofs.Names
import Contrary.Proofs.Phrase
import Contrary.Proofs.Target.File
import Contrary.Proofs.Target.Semantics
import Contrary.Proofs.WellFormed
import Contrary.Proofs.Target.Position
import Contrary.Proofs.Target.Mirror
import Contrary.Proofs.Target.Lines
import Contrary.Proofs.Target.Simulation
import Contrary.Proofs.Target.Ends
import Contrary.Proofs.Source
import Contrary.Proofs.Target.Reader
import Contrary.Proofs.Target.PhysicalLines
import Contrary.Proofs.Target.Preamble
import Contrary.Proofs.Target.Statements
import Contrary.Proofs.Target.ReadBack
import Contrary.Proofs.Target.Generated
import Contrary.Proofs.Target.Returns
import Contrary.Proofs.Target.Agreement
import Contrary.Proofs.Safety
import Contrary.Proofs.Target.Linear
import Contrary.Proofs.Located
import Contrary.Proofs.Lexing
import Contrary.Proofs.Reading
import Contrary.Proofs.Template
import Contrary.Proofs.Phrasing
import Contrary.Proofs.Written
import Contrary.Proofs.Display.Alike
import Contrary.Proofs.Trimming
import Contrary.Proofs.Layout
import Contrary.Proofs.LineEnds
import Contrary.Proofs.Target.Comments
import Contrary.Proofs.Numerals
import Contrary.Proofs.Decimals
import Contrary.Proofs.Indented
import Contrary.Proofs.Session.Buffer
import Contrary.Proofs.Session.Typing
import Contrary.Proofs.Target.Identifiers
import Contrary.Proofs.CommandLine.Saving
import Contrary.Proofs.Matching
import Contrary.Proofs.Segments
import Contrary.Proofs.Rendering
import Contrary.Proofs.FailedSteps
import Contrary.Proofs.Incremental
import Contrary.Proofs.Cutting
import Contrary.Proofs.Values
import Contrary.Proofs.LiteralMoves
import Contrary.Proofs.Conditions
import Contrary.Proofs.Commands
import Contrary.Proofs.Histories
import Contrary.Proofs.Progress
import Contrary.Proofs.Leaks
import Contrary.Proofs.Piping
import Contrary.Proofs.Folding
import Contrary.Proofs.Concatenation
import Contrary.Proofs.CommandLine.Arguments
import Contrary.Proofs.Quoting
import Contrary.Proofs.Dumps.Tokens
import Contrary.Proofs.Dumps.Operations
import Contrary.Proofs.Dumps.Programs
import Contrary.Proofs.TrimmedLines
