import Moagan.Lib.Scan
import Moagan.Lib.Runs
import Moagan.Lib.FileSystem
import Moagan.Lib.Separated
import Moagan.Lib.SortedMap
import Moagan.Lib.Blocks
import Moagan.Lib.UnionFind
import Moagan.Lib.Trees
import Moagan.Lib.Maximal
import Moagan.Lib.LockedUpdate
import Moagan.Lib.Newest
import Moagan.Atomic.Writer
import Moagan.Atomic.Crash
import Moagan.Discovery.Fanout
import Moagan.Discovery.Numbering
import Moagan.Discovery.Render
import Moagan.Discovery.Catalog
import Moagan.Discovery.Curation
import Moagan.Discovery.Integrity
import Moagan.Lib.JsonSyntax
import Moagan.Lib.JsonScan
import Moagan.Json.Text
import Moagan.Json.Value
import Moagan.Json.Repair
import Moagan.Json.Slips
import Moagan.Json.Extractor
import Moagan.Json.WellFormed
import Moagan.Json.Untouched
import Moagan.Json.Recovery
import Moagan.Json.Edited
import Moagan.Json.Loss
import Moagan.Llm.RateLimiter
import Moagan.Llm.CacheKey
import Moagan.Llm.CircuitBreaker
import Moagan.Llm.Sidecar
import Moagan.Llm.Convergence
import Moagan.Llm.Invalidation
import Moagan.Llm.OperatorCap
import Moagan.Storage.Lease
import Moagan.Storage.Exclusion
import Moagan.Rank.Quality
import Moagan.Rank.Cluster
import Moagan.Rank.Selection
import Moagan.Rank.Phase
import Moagan.Rank.Leads
import Moagan.Rank.Winner
import Moagan.Rank.Order
import Moagan.Llm.Sidecar
import Moagan.Lib.JsonWrite
import Moagan.Llm.WireBody
import Moagan.Storage.Fencing
import Moagan.Storage.Migrations
import Moagan.Atomic.Commit
import Moagan.Lib.Evict
import Moagan.Llm.Cache
import Moagan.Llm.CacheBound
import Moagan.Atomic.Concurrent
import Moagan.Llm.CacheCalls
import Moagan.Llm.CacheFresh
import Moagan.Llm.CacheAlone
import Moagan.Lib.Lines
import Moagan.Lib.Regex
import Moagan.Lib.Replace
import Moagan.Redact.Patterns
import Moagan.Redact.Apply
import Moagan.Redact.Writer
import Moagan.Redact.LineByLine
import Moagan.Reconcile.Zombies
import Moagan.Reconcile.LiveRuns
import Moagan.Lib.Plans
import Moagan.Atomic.SideBySide
import Moagan.Reconcile.Cleanup
import Moagan.Discovery.MatrixSpec
import Moagan.Discovery.CellFiles
import Moagan.Discovery.Merge
import Moagan.Storage.Compression
import Moagan.Storage.Resume
import Moagan.Lib.Overrun
import Moagan.Telemetry.Retention
import Moagan.Lib.Links
import Moagan.FsLayout.SafePath
import Moagan.Llm.Governor
import Moagan.Llm.Probe
import Moagan.Llm.ProbeRule
import Moagan.Llm.ProbeExact
import Moagan.Llm.Cascade
import Moagan.Lib.Grounded
import Moagan.Lib.Kahn
import Moagan.Lib.Layers
import Moagan.Lib.Reduce
import Moagan.Lib.Greedy
import Moagan.Lib.FirstFit
import Moagan.Phases.ProblemGraph
import Moagan.Phases.Dag
import Moagan.Phases.Schedule
import Moagan.Phases.Decompose
import Moagan.Json.Embedded
import Moagan.Json.Truncated
import Moagan.Json.Traced
import Moagan.Json.Stripped
import Moagan.Json.CutString
import Moagan.Lib.WriteBack
import Moagan.Llm.ParamRejections
import Moagan.Llm.CacheLookup
import Moagan.Discovery.FanoutSize
import Moagan.Discovery.LegacyKeys
import Moagan.Llm.CacheEvict
import Moagan.Llm.Dispatcher
import Moagan.Discovery.Temperatures
import Moagan.Discovery.Curated
import Moagan.Discovery.Chunks
import Moagan.Validators.SqlExpr
import Moagan.Lib.FileTree
import Moagan.Telemetry.Export
import Moagan.Telemetry.Verify
import Moagan.Rank.Components
import Moagan.Lib.RoundRobin
import Moagan.Rank.Fairness
import Moagan.Rank.Crowding
import Moagan.Rank.Stability
import Moagan.Rank.Diverse
import Moagan.Redact.Verbatim
import Moagan.Validators.SqlStatements
import Moagan.Validators.SqlDialects
import Moagan.Validators.SqlDefinitions
import Moagan.Validators.SqlSplit
import Moagan.Lib.RegexEdges
import Moagan.Lib.Markers
import Moagan.Redact.Markers
import Moagan.Redact.Categories
import Moagan.Lib.RegexLanguage
import Moagan.Lib.RegexEdits
import Moagan.Redact.Complete
import Moagan.Lib.Calendar
import Moagan.Telemetry.ArchiveDates
import Moagan.Execution.Parallelism
import Moagan.Lib.AnyOrder
import Moagan.Audit.Verify
import Moagan.Audit.LineOrder
import Moagan.Lib.Sweeps
import Moagan.Telemetry.CrossRunSweep
import Moagan.Config.Profile
import Moagan.Discovery.CurateSessions
import Moagan.Discovery.Resumed
import Moagan.Discovery.SessionCatalog
import Moagan.Discovery.SessionEnds
import Moagan.Lib.Attempts
import Moagan.Lib.Bpf
import Moagan.Llm.ProviderGate
import Moagan.Phases.GovernedCalls
import Moagan.Phases.RetryCounts
import Moagan.Sandbox.Seccomp
import Moagan.Audit.Format
import Moagan.Audit.HttpFraming
import Moagan.Audit.HttpRoundTrip
import Moagan.Audit.Proxy
import Moagan.Audit.ProxyForwards
import Moagan.Audit.ProxySecrets
