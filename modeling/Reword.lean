import Reword.Text.Units
import Reword.Text.Quoted
import Reword.Substitution.Literal
import Reword.Substitution.Table
import Reword.Substitution.Bundled
import Reword.Json.Basic
import Reword.Json.Reader
import Reword.Text.Blank
import Reword.Text.Template
import Reword.Diagnostic.Basic
import Reword.Diagnostic.Record
import Reword.Rules.Document
import Reword.Report
import Reword.Options
import Reword.Json.Display
import Reword.Text.Utf8
import Reword.Volume.Path
import Reword.Volume.Basic
import Reword.Volume.Fault
import Reword.Volume.Lookup
import Reword.Volume.Update
import Reword.Volume.Removal
import Reword.Volume.Listing
import Reword.Host
import Reword.TextFile
import Reword.Log
import Reword.Walk
import Reword.Run
import Reword.CommandLine.Grammar
import Reword.CommandLine.Program
import Reword.Decimal.Binary64
import Reword.Decimal.Shortest
import Reword.Main
import Reword.Proofs.Scan
import Reword.Proofs.Fixpoint
import Reword.Proofs.Stops
import Reword.Proofs.Shape
import Reword.Proofs.Canonical
import Reword.Proofs.AtomicWrite
import Reword.Proofs.Batch
import Reword.Proofs.FileOutcome
import Reword.Proofs.RuleOrder
import Reword.Proofs.Traversal
import Reword.Proofs.ProperVolume
import Reword.Proofs.WalkOnce
import Reword.Proofs.ReportCounts
import Reword.Proofs.TableEntries
import Reword.Proofs.OnePass
import Reword.Proofs.AtomicReplace
import Reword.Proofs.UnitOrder
import Reword.Proofs.SourceTree
import Reword.Proofs.WalkOrder
import Reword.Proofs.Locality
import Reword.Proofs.Commuting
import Reword.Proofs.Shadowed
import Reword.Proofs.Utf8Codec
import Reword.Proofs.TextRoundTrip
import Reword.Proofs.SurrogatePairs
import Reword.Proofs.FileIds
import Reword.Proofs.MessageTemplates
import Reword.Proofs.PullLimit
