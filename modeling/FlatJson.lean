import FlatJson.Main
import FlatJson.Node
import FlatJson.ServiceRecord
import FlatJson.Proofs.Grammar
import FlatJson.Proofs.Number.Scan
import FlatJson.Proofs.Scan.Lexeme
import FlatJson.Proofs.Scan.Run
import FlatJson.Proofs.Scan.Derive
import FlatJson.Proofs.Tape.Preorder
import FlatJson.Proofs.Reader
import FlatJson.Proofs.Decode
import FlatJson.Proofs.Scan.Refusal
import FlatJson.Proofs.Scan.Viable
import FlatJson.Proofs.Scan.Bound
import FlatJson.Proofs.Tape.Refusal
import FlatJson.Proofs.Tape.Standing
import FlatJson.Proofs.Text.Refusal
import FlatJson.Proofs.OneValue
import FlatJson.Proofs.Phases
import FlatJson.Proofs.Faults
import FlatJson.Proofs.CursorRun
import FlatJson.Proofs.Path
import FlatJson.Proofs.Number.Digits
import FlatJson.Proofs.Number.Rounding
import FlatJson.Proofs.Number.Shortest
import FlatJson.Proofs.RoundTrip
import FlatJson.Proofs.Sink
import FlatJson.Proofs.Reads
import FlatJson.Proofs.Carries
import FlatJson.Proofs.TypedRoundTrip
import FlatJson.Proofs.Scan.Shift
import FlatJson.Proofs.Embedding
import FlatJson.Proofs.Parts
import FlatJson.Proofs.Text.Unescape
import FlatJson.Proofs.Text.Delimited
import FlatJson.Proofs.Tape.Shift
import FlatJson.Proofs.Catalog.Plain
import FlatJson.Proofs.AnyShape
import FlatJson.Proofs.NodeTape
import FlatJson.Proofs.Projection
import FlatJson.Proofs.Text.Boundary
import FlatJson.Proofs.Text.Excerpt
import FlatJson.Proofs.Quotation
import FlatJson.Proofs.Record.Members
import FlatJson.Proofs.Record.Fields
import FlatJson.Proofs.Record.Rearranged
import FlatJson.Proofs.Tidy
import FlatJson.Proofs.Record.RoundTrip
import FlatJson.Proofs.Branch
import FlatJson.Proofs.Scan.Depth
import FlatJson.Proofs.Number.Integer
import FlatJson.Proofs.Clean
import FlatJson.Proofs.Display
import FlatJson.Proofs.Catalog.BigNumber
import FlatJson.Proofs.Catalog.Signed
import FlatJson.Proofs.Catalog.Strings
import FlatJson.Proofs.Catalog.Period
import FlatJson.Proofs.Catalog.TimeOfDay
import FlatJson.Proofs.Catalog.Duration
import FlatJson.Proofs.Catalog.YearMonth
import FlatJson.Proofs.Catalog.Calendar
import FlatJson.Proofs.Catalog.Clock
import FlatJson.Proofs.Catalog.DateTime
import FlatJson.Proofs.Catalog.Unescaped
import FlatJson.Proofs.Levels
import FlatJson.Proofs.Tape.Control
import FlatJson.Proofs.Tape.Pending
import FlatJson.Proofs.TokenText
import FlatJson.Proofs.ReaderRun
import FlatJson.Proofs.SinkRun
import FlatJson.Proofs.Number.Pattern
import FlatJson.Proofs.Number.Extent
import FlatJson.Proofs.Number.Store
