import NexumRuntime.Machine
import NexumRuntime.Gather
import NexumRuntime.Reconnect
import NexumRuntime.LittleEndian
import NexumRuntime.Cursors
import NexumRuntime.ChainLogTask
import NexumRuntime.ChainLogScan
import NexumRuntime.ChainLogCoverage
import NexumRuntime.Lifecycle
import NexumRuntime.Dispatch
import NexumRuntime.CursorLedger
import NexumRuntime.Boots
import NexumRuntime.DeliveredTail
import NexumRuntime.ReopenCoverage
import NexumRuntime.Retraction
import NexumRuntime.RollbackCursor
import NexumRuntime.BlockTask
import NexumRuntime.BackoffLaw
import NexumRuntime.OrderedMap
import NexumRuntime.Transactions
import NexumRuntime.LocalStore
import NexumRuntime.Fallible
import NexumRuntime.LocalStoreLedger
import NexumRuntime.LocalStoreDeletes
import NexumRuntime.LocalStoreReads
import NexumRuntime.Unwinding
import NexumRuntime.NamespaceIsolation
import NexumRuntime.Paging
import NexumRuntime.PagedListing
import NexumRuntime.QuotaAdvice
import NexumRuntime.SlidingWindow
import NexumRuntime.Lifeline
import NexumRuntime.Supervision
import NexumRuntime.HealthMachine
import NexumRuntime.TaskSet
import NexumRuntime.EventLoop
import NexumRuntime.RunVerdict
import NexumRuntime.SilentSource
import NexumRuntime.GuestPrograms
import NexumRuntime.StoreHost
import NexumRuntime.Journal
import NexumRuntime.GuardedSubmit
import NexumRuntime.AddressRanges
import NexumRuntime.HostPattern
import NexumRuntime.IpAddresses
import NexumRuntime.HttpGate
import NexumRuntime.GregorianCalendar
import NexumRuntime.TextFields
import NexumRuntime.CronSchedule
import NexumRuntime.CronGrammar
import NexumRuntime.CronEvaluation
import NexumRuntime.ScheduleTask
import NexumRuntime.StoreFormat
import NexumRuntime.CursorRepair
import NexumRuntime.RowCollection
import NexumRuntime.ChainConfig
import NexumRuntime.IntervalTiling
import NexumRuntime.BulkBackfill
import NexumRuntime.StoppableLoop
import NexumRuntime.FanOutStop
import NexumRuntime.Utf8Text
import NexumRuntime.TomlLexis
import NexumRuntime.EnvSubstitution
import NexumRuntime.ListWeight
import NexumRuntime.StoreFakes
import NexumRuntime.LogRecords
import NexumRuntime.LogBounds
import NexumRuntime.LineFraming
import NexumRuntime.StdioCapture
import NexumRuntime.RetentionRing
import NexumRuntime.RunLogStore
import NexumRuntime.RetainedRuns
import NexumRuntime.JournalPending
import NexumRuntime.Commitments
import NexumRuntime.RetryLedger
import NexumRuntime.ScaleDecimal
import NexumRuntime.DrainWakeups
import NexumRuntime.ShutdownDeadline
import NexumRuntime.CalendarWords
import NexumRuntime.TaskAccounting
import NexumRuntime.InterfaceTracks
import NexumRuntime.OperatorPolicy
import NexumRuntime.BootPrepass
import NexumRuntime.ModuleWorlds
import NexumRuntime.CapabilityEnforcement
import NexumRuntime.HexText
import NexumRuntime.HttpExchange
import NexumRuntime.CallHistory
import NexumRuntime.BootLoad
import NexumRuntime.HostedRuns
import NexumRuntime.ChainBoundary
import NexumRuntime.HostTransport
import NexumRuntime.BinaryRounding
import NexumRuntime.TokenBucket
import NexumRuntime.SourcePlan
import NexumRuntime.StoredValues
import NexumRuntime.TypedStore
