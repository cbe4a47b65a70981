import JobChain.Assembly
import JobChain.Binary64
import JobChain.Binary64.Reader
import JobChain.Binary64.Shortest
import JobChain.Builtin
import JobChain.Chain
import JobChain.ChainInfo
import JobChain.Client
import JobChain.Command
import JobChain.Content
import JobChain.Counters
import JobChain.Criterion
import JobChain.Csv
import JobChain.Dataset
import JobChain.Element
import JobChain.Engine
import JobChain.Error
import JobChain.Execution
import JobChain.Failure
import JobChain.Filter
import JobChain.Formula
import JobChain.Formula.Reader
import JobChain.FusedRun
import JobChain.Glob
import JobChain.Http
import JobChain.Http.MediaType
import JobChain.Http.Wire
import JobChain.Job
import JobChain.JobRun
import JobChain.Json
import JobChain.Json.Decode
import JobChain.Json.Document
import JobChain.Json.Numeral
import JobChain.Json.Order
import JobChain.Json.Printer
import JobChain.Log
import JobChain.Main
import JobChain.Options
import JobChain.OutputFile
import JobChain.Package
import JobChain.Path
import JobChain.Plan
import JobChain.Publication
import JobChain.RecordFormat
import JobChain.Reduction
import JobChain.Registry
import JobChain.Relay
import JobChain.Service
import JobChain.SipHash
import JobChain.SortedMap
import JobChain.Stage
import JobChain.Store
import JobChain.Store.Listing
import JobChain.Task
import JobChain.Text.Alphabetic
import JobChain.Text.Blank
import JobChain.Text.CodeRange
import JobChain.Text.Decimal
import JobChain.Text.Numeric
import JobChain.Timestamp
import JobChain.Proofs.Fusion.Stages
import JobChain.Proofs.Fusion
import JobChain.Proofs.Transit
import JobChain.Proofs.Plan.Divisions
import JobChain.Proofs.Plan.Growth
import JobChain.Proofs.Execution.Recording
import JobChain.Proofs.Execution.Outcome
import JobChain.Proofs.Store.Steps
import JobChain.Proofs.Store.Ways
import JobChain.Proofs.Store.Trees
import JobChain.Proofs.Store.Changes
import JobChain.Proofs.Glob.Escape
import JobChain.Proofs.Store.Found
import JobChain.Proofs.Layout
import JobChain.Proofs.Execution.Files
import JobChain.Proofs.Execution.Upkeep
import JobChain.Proofs.Execution.Intermediates
import JobChain.Proofs.Execution.Inputs
import JobChain.Proofs.Store.Deletions
import JobChain.Proofs.Execution.Tidying
import JobChain.Proofs.Binary64.Rounding
import JobChain.Proofs.Json.Values
import JobChain.Proofs.Json.Order
import JobChain.Proofs.Grouping
import JobChain.Proofs.Engine.Partitions
import JobChain.Proofs.Json.Numerals
import JobChain.Proofs.Json.Documents
import JobChain.Proofs.Json.RoundTrip
import JobChain.Proofs.Engine.Tasks
import JobChain.Proofs.Store.Files
import JobChain.Proofs.Engine.Outputs
import JobChain.Proofs.Engine.Shuffle
import JobChain.Proofs.Engine.Jobs
import JobChain.Proofs.Engine.Commits
import JobChain.Proofs.Engine.Manifests
import JobChain.Proofs.Execution.Handover
import JobChain.Proofs.Execution.Evidence
import JobChain.Proofs.Options.Views
import JobChain.Proofs.Store.Likeness
import JobChain.Proofs.Json.Integral
import JobChain.Proofs.Sums.Integers
import JobChain.Proofs.Sums
import JobChain.Proofs.Engine.Likeness
import JobChain.Proofs.Engine.Combining
import JobChain.Proofs.Counts
import JobChain.Proofs.Engine.Counting
import JobChain.Proofs.Options.Isolation
import JobChain.Proofs.Compilation
import JobChain.Proofs.Formula.Comparisons
import JobChain.Proofs.Formula.Reading
import JobChain.Proofs.Records
import JobChain.Proofs.Execution.Trails
import JobChain.Proofs.Service.Acceptance
import JobChain.Proofs.Execution.Ledger
import JobChain.Proofs.Service.Notices
import JobChain.Proofs.Store.Enclosing
import JobChain.Proofs.Store.Sharing
import JobChain.Proofs.Store.SharedListings
import JobChain.Proofs.Engine.Footprints
import JobChain.Proofs.Execution.Abreast
import JobChain.Proofs.Store.Confined
import JobChain.Proofs.Store.Opened
import JobChain.Proofs.Execution.Frames
import JobChain.Proofs.Service.Confinement
import JobChain.Proofs.Store.Erasing
import JobChain.Proofs.Store.Remaking
import JobChain.Proofs.Execution.Overwriting
import JobChain.Proofs.Criterion.Scripts
import JobChain.Proofs.Encoding.Fields
import JobChain.Proofs.Encoding.Criteria
import JobChain.Proofs.Encoding.Plans
import JobChain.Proofs.Service.Submission
import JobChain.Proofs.Filter.Stripping
import JobChain.Proofs.Filter.Conjunction
import JobChain.Proofs.Options.Tracking
import JobChain.Proofs.Binary64.Nearest
import JobChain.Proofs.Formula.Literals
import JobChain.Proofs.Plan.Refusals
import JobChain.Proofs.Relays
import JobChain.Proofs.Store.Below
import JobChain.Proofs.Results
import JobChain.Proofs.Counters
import JobChain.Proofs.Engine.Tallies
import JobChain.Proofs.Execution.Totals
