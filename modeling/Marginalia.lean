import Marginalia.Text.Utf8
import Marginalia.Source.Token
import Marginalia.Source.Scanner
import Marginalia.Source.SyntaxError
import Marginalia.Markers
import Marginalia.Instrumented
import Marginalia.Event
import Marginalia.Result
import Marginalia.Annotation.Removal
import Marginalia.Annotation
import Marginalia.Json.Parser
import Marginalia.Event.Stream
import Marginalia.Event.Reader
import Marginalia.Result.Store
import Marginalia.Binary64.Shortest
import Marginalia.EvalOptions
import Marginalia.Program
import Marginalia.Run.Invocation
import Marginalia.Run.Conduct
import Marginalia.Engine.Report
import Marginalia.Engine.Session
import Marginalia.Directory
import Marginalia.Main
import Marginalia.Proofs.Source.Spans
import Marginalia.Proofs.Instrumented.Weave
import Marginalia.Proofs.Instrumented.Wrapping
import Marginalia.Proofs.Source.Accepted
import Marginalia.Proofs.Annotation.Lines
import Marginalia.Proofs.Annotation.Removal
import Marginalia.Proofs.Source.LineEnd
import Marginalia.Proofs.Source.Extent
import Marginalia.Proofs.Source.Sealed
import Marginalia.Proofs.Source.Literal
import Marginalia.Proofs.Source.Twin
import Marginalia.Proofs.Source.CodeLines
import Marginalia.Proofs.Source.LineTail
import Marginalia.Proofs.Source.Margins
import Marginalia.Proofs.Source.Insertion
import Marginalia.Proofs.Source.Hinges
import Marginalia.Proofs.Source.Moves
import Marginalia.Proofs.Source.Comments
import Marginalia.Proofs.Annotation.Tokens
import Marginalia.Proofs.Text.Utf8
import Marginalia.Proofs.Json.RoundTrip
import Marginalia.Proofs.Event.Frame
import Marginalia.Proofs.Event.Stream
import Marginalia.Proofs.Event.Reader
import Marginalia.Proofs.Run.Exchange
import Marginalia.Proofs.Engine
import Marginalia.Proofs.Run.Watched
import Marginalia.Proofs.Result
import Marginalia.Proofs.Source.Stack
import Marginalia.Proofs.Source.Nesting
import Marginalia.Proofs.Source.Jumps
import Marginalia.Proofs.Annotation.Again
import Marginalia.Proofs.Engine.Session
import Marginalia.Proofs.Engine.Stable
import Marginalia.Proofs.Engine.LineEnds
import Marginalia.Proofs.Source.Narrow
import Marginalia.Proofs.Source.Slices
import Marginalia.Proofs.Source.Answers
import Marginalia.Proofs.Source.Separators
import Marginalia.Proofs.Source.Calls
import Marginalia.Proofs.Source.Dashes
import Marginalia.Proofs.Source.Waiting
import Marginalia.Proofs.Source.Bodies
import Marginalia.Proofs.Annotation.Strays
import Marginalia.Proofs.Annotation.Remains
import Marginalia.Proofs.Source.Stripped
import Marginalia.Proofs.Annotation.Settled
import Marginalia.Proofs.Text.Returns
import Marginalia.Proofs.Source.Returns
import Marginalia.Proofs.Source.ReturnedWalk
import Marginalia.Proofs.Source.ReturnedScan
import Marginalia.Proofs.Instrumented.Returned
import Marginalia.Proofs.Source.Statements
import Marginalia.Proofs.Source.Numbers
import Marginalia.Proofs.Source.Parenthesised
import Marginalia.Proofs.Source.Quoted
import Marginalia.Proofs.Source.Row
import Marginalia.Proofs.Source.Dots
import Marginalia.Proofs.Source.Locals
import Marginalia.Proofs.Source.Seals
import Marginalia.Proofs.Source.Withheld
import Marginalia.Proofs.Annotation.Shown
import Marginalia.Proofs.Annotation.Columns
import Marginalia.Proofs.Annotation.Limits
import Marginalia.Proofs.Annotation.Blocks
import Marginalia.Proofs.Command
import Marginalia.Proofs.Text.Fronts
import Marginalia.Proofs.Text.Chunks
import Marginalia.Proofs.Event.Handler
import Marginalia.Proofs.Settings
import Marginalia.Proofs.Source.Frames
