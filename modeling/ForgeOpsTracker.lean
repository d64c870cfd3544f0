import ForgeOpsTracker.Lib.Runs
import ForgeOpsTracker.Lib.Bytes
import ForgeOpsTracker.Lib.Calendar
import ForgeOpsTracker.Lib.Scan
import ForgeOpsTracker.Lib.Stretch
import ForgeOpsTracker.Lib.Regex
import ForgeOpsTracker.Lib.Directories
import ForgeOpsTracker.Lib.Newest
import ForgeOpsTracker.Lib.Json
import ForgeOpsTracker.Lib.JsonReader
import ForgeOpsTracker.Lib.Utf8
import ForgeOpsTracker.Lib.Ring
import ForgeOpsTracker.Lib.Fifo
import ForgeOpsTracker.Lib.Lines
import ForgeOpsTracker.Lib.Ere
import ForgeOpsTracker.Lib.Redaction
import ForgeOpsTracker.Lib.Double
import ForgeOpsTracker.Lib.Printf
import ForgeOpsTracker.Lib.Sha2
import ForgeOpsTracker.Lib.LongestFirst
import ForgeOpsTracker.Lib.Unwinding
import ForgeOpsTracker.Lib.Decimals
import ForgeOpsTracker.Client
import ForgeOpsTracker.Configuration
import ForgeOpsTracker.Dsn
import ForgeOpsTracker.Flushes
import ForgeOpsTracker.Metrics
import ForgeOpsTracker.MetricsLedger
import ForgeOpsTracker.StrictPrivacy
import ForgeOpsTracker.SpanNameAgain
import ForgeOpsTracker.MessagePatterns
import ForgeOpsTracker.MessageValues
import ForgeOpsTracker.Performance
import ForgeOpsTracker.PerformanceLedger
import ForgeOpsTracker.PerformanceMaximum
import ForgeOpsTracker.CrashDirectory
import ForgeOpsTracker.CrashStore
import ForgeOpsTracker.CrashStoreWrites
import ForgeOpsTracker.CrashStoreOrder
import ForgeOpsTracker.PiiScrubber
import ForgeOpsTracker.Breadcrumbs
import ForgeOpsTracker.BreadcrumbTrail
import ForgeOpsTracker.BreadcrumbCrash
import ForgeOpsTracker.BreadcrumbEntry
import ForgeOpsTracker.SignalReport
import ForgeOpsTracker.SignalReportCut
import ForgeOpsTracker.SqlStatement
import ForgeOpsTracker.SqlNumber
import ForgeOpsTracker.SqlNumberForms
import ForgeOpsTracker.SqlMaskLiterals
import ForgeOpsTracker.SqlMaskAgain
import ForgeOpsTracker.SqlMaskText
import ForgeOpsTracker.SqlDollarBody
import ForgeOpsTracker.SqlObjects
import ForgeOpsTracker.EventBuilder
import ForgeOpsTracker.EventJson
import ForgeOpsTracker.EventFailures
import ForgeOpsTracker.SourceContext
import ForgeOpsTracker.SignalReportWhole
import ForgeOpsTracker.Reporter
import ForgeOpsTracker.CardNumbers
import ForgeOpsTracker.Ibans
import ForgeOpsTracker.ScrubStages
import ForgeOpsTracker.ScrubCharacters
import ForgeOpsTracker.IbanRedaction
import ForgeOpsTracker.ScrubAgain
import ForgeOpsTracker.TraceParent
import ForgeOpsTracker.Spans
import ForgeOpsTracker.SpanTraces
import ForgeOpsTracker.SpanStack
import ForgeOpsTracker.TraceContext
import ForgeOpsTracker.DeliveryQueue
import ForgeOpsTracker.PerformanceSamples
import ForgeOpsTracker.Tracker
import ForgeOpsTracker.RequestBodies
import ForgeOpsTracker.PatternLoop
import ForgeOpsTracker.CardFormat
import ForgeOpsTracker.CardPattern
import ForgeOpsTracker.IbanPattern
import ForgeOpsTracker.IbanNumber
import ForgeOpsTracker.SensitiveKeys
import ForgeOpsTracker.SpanHosts
import ForgeOpsTracker.PathShape
import ForgeOpsTracker.SpanPrivacy
import ForgeOpsTracker.RawTexts
import ForgeOpsTracker.Sha256Digest
import ForgeOpsTracker.Changes
import ForgeOpsTracker.Sdk
import ForgeOpsTracker.SdkThreads
import ForgeOpsTracker.SdkPrivacy
import ForgeOpsTracker.MetricValues
import ForgeOpsTracker.ScrubLeaves
import ForgeOpsTracker.Requests
import ForgeOpsTracker.PerformanceValues
import ForgeOpsTracker.TrackerFlush
import ForgeOpsTracker.Lib.CivilDate
import ForgeOpsTracker.SpanValues
import ForgeOpsTracker.StringBuffer
import ForgeOpsTracker.SdkDisabled
import ForgeOpsTracker.SqlPrivacy
import ForgeOpsTracker.Lib.Once
import ForgeOpsTracker.Guards
import ForgeOpsTracker.EventValues
import ForgeOpsTracker.Lib.Labels
import ForgeOpsTracker.Destinations
import ForgeOpsTracker.CrashValues
import ForgeOpsTracker.Environment
import ForgeOpsTracker.Lib.Owner
import ForgeOpsTracker.TraceHandles
import ForgeOpsTracker.Lib.Pieces
import ForgeOpsTracker.FrameLines
import ForgeOpsTracker.Outbox
