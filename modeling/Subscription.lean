import Subscription.Attachment
import Subscription.Catalog.Basic
import Subscription.Catalog.Bundled
import Subscription.Catalog.Cycle
import Subscription.Catalog.Document
import Subscription.Catalog.Load
import Subscription.Catalog.Order
import Subscription.Catalog.Service
import Subscription.Characters.Blank
import Subscription.Characters.Lowercase
import Subscription.Characters.Lowercase.Table
import Subscription.CommandLine.Command
import Subscription.CommandLine.Console
import Subscription.CommandLine.Parse
import Subscription.CommandLine.Process
import Subscription.CommandLine.Run
import Subscription.CommandLine.Scan
import Subscription.CommandLine.Style
import Subscription.CommandLine.Suggestion
import Subscription.CommandLine.Transcript
import Subscription.CommandLine.Usage
import Subscription.Decimal.Basic
import Subscription.Decimal.Binary
import Subscription.Fault
import Subscription.Files.Error
import Subscription.Files.Path
import Subscription.Files.System
import Subscription.Files.Tree
import Subscription.Host.Basic
import Subscription.Host.Config
import Subscription.Host.Container
import Subscription.Host.Contracts
import Subscription.Host.Home
import Subscription.Host.Instant
import Subscription.Host.Machine
import Subscription.Host.OsRelease
import Subscription.Json.Basic
import Subscription.Json.Printer
import Subscription.Json.Reader
import Subscription.Main
import Subscription.Manager.Basic
import Subscription.Manager.Embedded
import Subscription.Manager.Host
import Subscription.Manager.Operation
import Subscription.Number
import Subscription.Operation.Action
import Subscription.Operation.Executor
import Subscription.Operation.Handler
import Subscription.Operation.Message
import Subscription.Operation.Record
import Subscription.Operation.Report
import Subscription.Operation.Request
import Subscription.Operation.Tally
import Subscription.Proofs.Catalog.Accepted
import Subscription.Proofs.Catalog.Circles
import Subscription.Proofs.Catalog.Document
import Subscription.Proofs.Catalog.Ordering
import Subscription.Proofs.Catalog.Requirement
import Subscription.Proofs.Catalog.Search
import Subscription.Proofs.Catalog.Stability
import Subscription.Proofs.Decimal.Figures
import Subscription.Proofs.Executor.Attempts
import Subscription.Proofs.Executor.Calls
import Subscription.Proofs.Executor.Cascade
import Subscription.Proofs.Executor.Change
import Subscription.Proofs.Executor.Consistent
import Subscription.Proofs.Executor.Dismissal
import Subscription.Proofs.Executor.Faults
import Subscription.Proofs.Executor.Growth
import Subscription.Proofs.Executor.Orderly
import Subscription.Proofs.Executor.Reasoning
import Subscription.Proofs.Executor.Records
import Subscription.Proofs.Executor.Replies
import Subscription.Proofs.Executor.Revocation
import Subscription.Proofs.Executor.Session
import Subscription.Proofs.Executor.Step
import Subscription.Proofs.Executor.Turns
import Subscription.Proofs.Files.Path
import Subscription.Proofs.Files.Tree
import Subscription.Proofs.Json.Quote
import Subscription.Proofs.Json.ReadBack
import Subscription.Proofs.Json.Shape
import Subscription.Proofs.Manager.Embedded
import Subscription.Proofs.Manager.Granted
import Subscription.Proofs.Manager.InMemory
import Subscription.Proofs.Manager.Invariant
import Subscription.Proofs.Manager.OnDisk
import Subscription.Proofs.Manager.Once
import Subscription.Proofs.Manager.Persistence
import Subscription.Proofs.Manager.Rejection
import Subscription.Proofs.Manager.RoundTrip
import Subscription.Proofs.Manager.Runs
import Subscription.Proofs.Manager.Simulation
import Subscription.Proofs.Manager.Watched
import Subscription.Proofs.Reasoning
import Subscription.Proofs.Resolution.Batches
import Subscription.Proofs.Resolution.Calls
import Subscription.Proofs.Resolution.Course
import Subscription.Proofs.Resolution.Detach
import Subscription.Proofs.Resolution.Faults
import Subscription.Proofs.Resolution.Granted
import Subscription.Proofs.Resolution.Identity
import Subscription.Proofs.Resolution.Instance
import Subscription.Proofs.Resolution.Invariant
import Subscription.Proofs.Resolution.Matching
import Subscription.Proofs.Resolution.Notices
import Subscription.Proofs.Resolution.Refresh
import Subscription.Proofs.Resolution.Reporting
import Subscription.Proofs.Resolution.Request
import Subscription.Proofs.Resolution.Resolver
import Subscription.Proofs.Resolution.Retries
import Subscription.Proofs.Resolution.Rounds
import Subscription.Proofs.Resolution.Session
import Subscription.Proofs.Resolution.Sound
import Subscription.Proofs.Resolution.Termination
import Subscription.Proofs.Resolution.Warnings
import Subscription.Proofs.Storage.Attachment
import Subscription.Proofs.Storage.Contest
import Subscription.Proofs.Storage.Exclusion
import Subscription.Proofs.Storage.Guard
import Subscription.Proofs.Storage.Lock
import Subscription.Resolution.AutoAttach
import Subscription.Resolution.Basic
import Subscription.Resolution.Lifecycle
import Subscription.Storage.Attachment
import Subscription.Storage.Basic
import Subscription.Storage.Contest
import Subscription.Storage.Lock
import Subscription.Text.Basic
import Subscription.Text.Part
import Subscription.View.Help
import Subscription.View.Rendering
import Subscription.View.Status
import Subscription.View.Table
import Subscription.Proofs.Manager.Bracket
import Subscription.Proofs.Manager.Overlap
import Subscription.Proofs.Manager.Blocked
import Subscription.Proofs.Storage.Interchange
import Subscription.Proofs.CommandLine.Output
import Subscription.Proofs.Executor.Replay
import Subscription.Proofs.Manager.Chronicle
import Subscription.Proofs.Executor.Alone
import Subscription.Proofs.Executor.Uniform
import Subscription.Proofs.Resolution.OneByOne
import Subscription.Proofs.Executor.Stacked
import Subscription.Proofs.Executor.Stretch
import Subscription.Proofs.Resolution.Reordering
import Subscription.Proofs.Resolution.Undo
import Subscription.Proofs.View.Standing
import Subscription.Proofs.Json.Members
import Subscription.Proofs.Host.OsRelease
import Subscription.Proofs.Host.Config
