import ScanTriage.Main
import ScanTriage.FileSystem.Tree
import ScanTriage.Proofs.Triage.Windows
import ScanTriage.Proofs.Triage.Consistency
import ScanTriage.Proofs.Annotate.Encoding
import ScanTriage.Proofs.Annotate.Verified
import ScanTriage.Proofs.Json.RoundTrip
import ScanTriage.Proofs.Annotate.Repeated
import ScanTriage.Proofs.Annotate.Preserved
import ScanTriage.Proofs.Text.Space
import ScanTriage.Proofs.FileSystem.Path
import ScanTriage.Proofs.Gzip
import ScanTriage.Proofs.Sorting.Quicksort
import ScanTriage.Proofs.FileSystem.Folder
import ScanTriage.Proofs.FileSystem.Run
import ScanTriage.Proofs.History.Append
import ScanTriage.Proofs.History.Computed
import ScanTriage.Proofs.History.Readable
import ScanTriage.Proofs.History.Runs
import ScanTriage.Proofs.Config.Precedence
import ScanTriage.Proofs.FileSystem.Sound
import ScanTriage.Proofs.Annotate.Program
import ScanTriage.Proofs.Annotate.Replace
import ScanTriage.Proofs.Annotate.Frame
import ScanTriage.Proofs.Annotate.Serial
import ScanTriage.Proofs.History.Overlap
import ScanTriage.Proofs.Config.Usable
import ScanTriage.Proofs.Json.Tolerant
import ScanTriage.Proofs.Finding.RoundTrip
import ScanTriage.Proofs.Annotate.Documented
import ScanTriage.Proofs.History.Table
import ScanTriage.Proofs.History.Unrotated
import ScanTriage.Proofs.History.Statistics
import ScanTriage.Proofs.Text.Search
import ScanTriage.Proofs.Triage.LoopVerdict
import ScanTriage.Proofs.Triage.RunId
import ScanTriage.Proofs.History.Discovery
import ScanTriage.Proofs.History.Previous
import ScanTriage.Proofs.Triage.FlagVerdict
import ScanTriage.Proofs.Triage.PathSpelling
import ScanTriage.Proofs.Triage.Spacing
import ScanTriage.Proofs.Triage.Snippets
import ScanTriage.Proofs.Triage.Tracing
import ScanTriage.Proofs.Heuristics.Cited
import ScanTriage.Proofs.Triage.Narrative
import ScanTriage.Proofs.History.Orderless
import ScanTriage.Proofs.Text.NormalForm
import ScanTriage.Proofs.Triage.Vendored
