import SpRtrace.Lib.Area
import SpRtrace.Lib.Descriptor
import SpRtrace.Library.HeaderTheorems
import SpRtrace.Library.MaskTheorems
import SpRtrace.Library.RecordTheorems
import SpRtrace.Library.RoundTrip
import SpRtrace.Modules.MemoryTheorems
import SpRtrace.Modules.PipeBuffer
import SpRtrace.Modules.PipeBufferTheorems
import SpRtrace.Pagemap.Pageflags
import SpRtrace.Pagemap.PageflagsTheorems
import SpRtrace.Postproc.CallLog
import SpRtrace.Postproc.CommentPlaces
import SpRtrace.Postproc.CommentTheorems
import SpRtrace.Postproc.CompressTheorems
import SpRtrace.Postproc.EnvironmentLog
import SpRtrace.Postproc.EnvironmentRoundTrip
import SpRtrace.Postproc.LeakSummary
import SpRtrace.Postproc.LeakTheorems
import SpRtrace.Postproc.LogEvents
import SpRtrace.Postproc.LogLines
import SpRtrace.Postproc.LogRecords
import SpRtrace.Postproc.LogRoundTrip
import SpRtrace.Postproc.NullResources
import SpRtrace.Postproc.ParseBinaryTheorems
import SpRtrace.Postproc.ParseLoopTheorems
import SpRtrace.Postproc.ParseText
import SpRtrace.Postproc.RangeFilter
import SpRtrace.Postproc.Recount
import SpRtrace.Postproc.Removals
import SpRtrace.Postproc.Session
import SpRtrace.Postproc.StoreTheorems
import SpRtrace.Postproc.TextLog
import SpRtrace.Postproc.TrimTheorems
import SpRtrace.Postproc.Writer
import SpRtrace.Postproc.WriterTheorems
import SpRtrace.Resolve.MultiPassTheorems
import SpRtrace.Resolve.NameCache
import SpRtrace.Resolve.NameCacheTheorems
import SpRtrace.Resolve.Resolver
import SpRtrace.Rtrace.ListenerTheorems
import SpRtrace.Rtrace.OutputBuffer
import SpRtrace.Scripts.CallTree
import SpRtrace.Scripts.CallTreeTheorems
import SpRtrace.Timeline.Processor
import SpRtrace.Timeline.TimelineTheorems
import SpRtrace.Lib.Ranges
import SpRtrace.Modules.RelativePath
import SpRtrace.Pagemap.Density
import SpRtrace.Pagemap.DensityTheorems
import SpRtrace.Pagemap.MapsReader
import SpRtrace.Pagemap.MapsReaderTheorems
import SpRtrace.Pagemap.PageFilter
import SpRtrace.Resolve.ModuleLookup
import SpRtrace.Modules.EmuHeap
import SpRtrace.Modules.EmuHeapTheorems
import SpRtrace.Rtrace.MapsCache
import SpRtrace.Rtrace.MapsCacheTheorems
import SpRtrace.Timeline.ContextTotals
import SpRtrace.Timeline.Histogram
import SpRtrace.Timeline.HistogramReport
import SpRtrace.Timeline.Separation
import SpRtrace.Allocmap.DirtyPages
import SpRtrace.Allocmap.DirtyPagesTheorems
import SpRtrace.Lib.SearchTree
import SpRtrace.Lib.Strings
import SpRtrace.Library.SizeFilter
import SpRtrace.Library.SizeFilterTheorems
import SpRtrace.Library.Tracker
import SpRtrace.Library.TrackerTheorems
import SpRtrace.Modules.FileTable
import SpRtrace.Modules.FileTableTheorems
import SpRtrace.Modules.NameRegistry
import SpRtrace.Modules.NameRegistryTheorems
import SpRtrace.Lib.Bypass
import SpRtrace.Rtrace.Managed
import SpRtrace.Rtrace.ManagedTheorems
import SpRtrace.Scripts.Trim
import SpRtrace.Scripts.TrimTheorems
import SpRtrace.Timeline.Activity
import SpRtrace.Resolve.KeepNames
import SpRtrace.Timeline.ActivityReport
import SpRtrace.Common.DlistLinks
import SpRtrace.Common.DlistLinksTheorems
import SpRtrace.Common.DlistSortLinks
import SpRtrace.Common.HtableLinks
import SpRtrace.Common.HtableTheorems
import SpRtrace.Lib.Batches
import SpRtrace.Postproc.HashTables
import SpRtrace.Resolve.SortedArray
import SpRtrace.Scripts.ParseReport
import SpRtrace.Scripts.ParseReportTheorems
import SpRtrace.Timeline.Timestamp
import SpRtrace.Timeline.TimestampTheorems
import SpRtrace.Postproc.EmittedCalls
import SpRtrace.Postproc.EventOrder
import SpRtrace.Postproc.TextResources
import SpRtrace.Modules.Session
import SpRtrace.Modules.SessionTheorems
import SpRtrace.Postproc.BinaryLog
import SpRtrace.Postproc.SessionStream
import SpRtrace.Postproc.SessionStore
import SpRtrace.Postproc.LeakLaws
import SpRtrace.Postproc.Pipeline
import SpRtrace.Postproc.PipelineTheorems
import SpRtrace.Postproc.Reframed
import SpRtrace.Modules.FileCalls
import SpRtrace.Postproc.LeakLedger
import SpRtrace.Postproc.RecordedCalls
import SpRtrace.Postproc.LeakCounts
import SpRtrace.Modules.FileLeaks
import SpRtrace.Lib.TreeMap
import SpRtrace.Modules.PosixShm
import SpRtrace.Modules.PosixShmTheorems
import SpRtrace.Modules.PosixShmLeaks
