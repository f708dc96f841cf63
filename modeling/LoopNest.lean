import LoopNest.Action.Basic
import LoopNest.Action.Candidate
import LoopNest.Action.Json
import LoopNest.Action.Kind
import LoopNest.Action.Text
import LoopNest.Table.Basic
import LoopNest.Table.Json
import LoopNest.CommandLine.Invocation
import LoopNest.CommandLine.Report
import LoopNest.Duration
import LoopNest.Error
import LoopNest.Forest.Ancestry
import LoopNest.Forest.Basic
import LoopNest.Forest.Build
import LoopNest.Forest.Check
import LoopNest.Forest.Interchange
import LoopNest.Forest.Section
import LoopNest.Forest.Text
import LoopNest.Forest.Walk
import LoopNest.Json.Record
import LoopNest.Json.Token
import LoopNest.Json.Value
import LoopNest.Loop.Bound
import LoopNest.Loop.Id
import LoopNest.Loop.Node
import LoopNest.Main
import LoopNest.Oracle.Basic
import LoopNest.Oracle.Command
import LoopNest.Oracle.Outage
import LoopNest.Oracle.Request
import LoopNest.Oracle.Skewing
import LoopNest.OrderedMap
import LoopNest.Program
import LoopNest.Schedule.Basic
import LoopNest.Schedule.Text
import LoopNest.Schedule.Workbench
import LoopNest.Search.Greedy
import LoopNest.Search.Statistics
import LoopNest.Text.Blank
import LoopNest.Text.Decimal
import LoopNest.Text.Printable
import LoopNest.Text.Quoted
import LoopNest.Text.ReadResult
import LoopNest.Proofs.Action.LoopPairs
import LoopNest.Proofs.Action.Renaming
import LoopNest.Proofs.Forest.Acceptance
import LoopNest.Proofs.Forest.Ancestry
import LoopNest.Proofs.Forest.Checking
import LoopNest.Proofs.Forest.EntryOrder
import LoopNest.Proofs.Forest.Equivariance
import LoopNest.Proofs.Forest.Interchange
import LoopNest.Proofs.Forest.Links
import LoopNest.Proofs.Forest.Lookup
import LoopNest.Proofs.Forest.Reachable
import LoopNest.Proofs.Forest.ReadBack
import LoopNest.Proofs.Forest.Rejection
import LoopNest.Proofs.Forest.Relabelling
import LoopNest.Proofs.Forest.Sections
import LoopNest.Proofs.Forest.Settling
import LoopNest.Proofs.Forest.Walks
import LoopNest.Proofs.Forest.WellNested
import LoopNest.Proofs.Json.Grammar
import LoopNest.Proofs.Json.Lexemes
import LoopNest.Proofs.Schedule.Calls
import LoopNest.Proofs.Schedule.Memory
import LoopNest.Proofs.Search.Accounting
import LoopNest.Proofs.Search.Budget
import LoopNest.Proofs.Search.Calls
import LoopNest.Proofs.Search.Fold
import LoopNest.Proofs.Search.Outages
import LoopNest.Proofs.Search.Outermost
import LoopNest.Proofs.Search.PerRootLimit
import LoopNest.Proofs.Search.Steps
import LoopNest.Proofs.Search.Trials
import LoopNest.Proofs.Search.Turns
import LoopNest.Proofs.Search.Verdicts
import LoopNest.Proofs.Table.WellFormed
import LoopNest.Proofs.Json.Records
import LoopNest.Proofs.Json.RoundTrip
import LoopNest.Proofs.Json.Variants
import LoopNest.Proofs.Forest.Downward
import LoopNest.Proofs.Forest.Representation
import LoopNest.Proofs.Forest.SectionOrder
import LoopNest.Proofs.Forest.Staging
import LoopNest.Proofs.Forest.Upward
import LoopNest.Proofs.Action.Writing
import LoopNest.Proofs.Schedule.ShortForm
import LoopNest.Proofs.Schedule.Regrouping
import LoopNest.Proofs.Action.Targets
import LoopNest.Proofs.Action.Levels
import LoopNest.Proofs.Action.InterchangeLevels
import LoopNest.Proofs.Oracle.Exchange
import LoopNest.Proofs.Oracle.Skewing
