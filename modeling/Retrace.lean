import Retrace.Record
import Retrace.Text
import Retrace.Graph
import Retrace.Filter
import Retrace.Walk
import Retrace.Session
import Retrace.Session.Command
import Retrace.Forward
import Retrace.TraceError
import Retrace.Record.Lexeme
import Retrace.Record.Reader
import Retrace.Record.Layout
import Retrace.Markup.Reference
import Retrace.Markup.Item
import Retrace.Markup.Element
import Retrace.Templight
import Retrace.Builder
import Retrace.Loader
import Retrace.Widget
import Retrace.Screen
import Retrace.Pane
import Retrace.Pane.Traces
import Retrace.Pane.Details
import Retrace.Viewer
import Retrace.Viewer.Input
import Retrace.Main
import Retrace.Proofs.Adjacency
import Retrace.Proofs.Undo
import Retrace.Proofs.History
import Retrace.Proofs.Lineage
import Retrace.Proofs.Soundness
import Retrace.Proofs.Listing
import Retrace.Proofs.Preorder
import Retrace.Proofs.Coverage
import Retrace.Proofs.Progress
import Retrace.Proofs.Replay
import Retrace.Proofs.Building
import Retrace.Proofs.Trimming
import Retrace.Proofs.Spelling
import Retrace.Proofs.RoundTrip
import Retrace.Proofs.Filtering
import Retrace.Proofs.Lines
import Retrace.Proofs.Lowering
import Retrace.Proofs.Recorded
import Retrace.Proofs.Locations
import Retrace.Proofs.TraceWalk
import Retrace.Proofs.Commutation
import Retrace.Proofs.Caching
import Retrace.Proofs.Drawing
import Retrace.Proofs.Viewing
import Retrace.Proofs.Documents
import Retrace.Proofs.Loading
import Retrace.Proofs.Bookkeeping
import Retrace.Proofs.Detection
import Retrace.Proofs.Wrapping
import Retrace.Proofs.Checked.Walk
import Retrace.Proofs.Checked.Session
import Retrace.Proofs.Checked.Forward
import Retrace.Proofs.Checked.Pane
import Retrace.Proofs.Checked.Serving
import Retrace.Proofs.Prompting
import Retrace.Proofs.Visiting
import Retrace.Proofs.Scrolling
import Retrace.Proofs.Paging
import Retrace.Proofs.Playing
import Retrace.Proofs.Bounding
import Retrace.Proofs.SteppingOver
import Retrace.Proofs.Disabling
import Retrace.Proofs.Lexing
