import FreeToken.Lib.Reach
import FreeToken.Scheduler.BusyLease
import FreeToken.Scheduler.Overlap
import FreeToken.KvCache.SnapshotLock
import FreeToken.KvCache.GaugeRuns
import FreeToken.KvCache.LiveLeaves
import FreeToken.KvCache.WindowedReuse
import FreeToken.KvCache.PrefixRuns
import FreeToken.Prefill.Finishability
import FreeToken.Speculation.GreedyRuns
import FreeToken.KvCache.PrefixCacheRuns
import FreeToken.KvCache.SwaLockRuns
import FreeToken.Spill.Budgets
import FreeToken.KvCache.HandleRuns
import FreeToken.Prefill.QueueRuns
import FreeToken.KvCache.PrefixPins
import FreeToken.Lib.Buffered
import FreeToken.Lib.Incremental
import FreeToken.Lib.Json
import FreeToken.Lib.Leftmost
import FreeToken.Lib.Pairing
import FreeToken.Mirror.Located
import FreeToken.Mirror.Starvation
import FreeToken.Server.Glm47
import FreeToken.Server.Glm47Stream
import FreeToken.Server.Harmony
import FreeToken.Server.InvokeParams
import FreeToken.Server.InvokeStream
import FreeToken.Server.ToolChunks
import FreeToken.Growable.Arena
import FreeToken.Growable.Controller
import FreeToken.Growable.FailedTransition
import FreeToken.Message.Decoding
import FreeToken.Message.Modules
import FreeToken.Message.RoundTrip
import FreeToken.Server.Admission
import FreeToken.Server.AdmissionRuns
import FreeToken.Server.AnthropicAppend
import FreeToken.Server.Generation
import FreeToken.Server.GenerationBrackets
import FreeToken.Engine.CacheBudget
import FreeToken.Experts.Admission
import FreeToken.Experts.AdmissionMaps
import FreeToken.Experts.AdmissionRuns
import FreeToken.Experts.Compaction
import FreeToken.Experts.Hybrid
import FreeToken.Experts.HybridRuns
import FreeToken.Experts.TieBreak
import FreeToken.Growable.Ledger
import FreeToken.KvCache.WindowPages
import FreeToken.Mirror.Refill
import FreeToken.KvCache.QuantCodes
import FreeToken.Growable.Driver
import FreeToken.KvCache.Dsv4Sizing
import FreeToken.Engine.ArenaPlan
import FreeToken.Growable.PoolMapping
import FreeToken.Mirror.DirectRead
import FreeToken.Growable.GrowRefusal
import FreeToken.Server.MiniMaxM3
import FreeToken.Mirror.ArenaResize
import FreeToken.Experts.PrefetchSplit
import FreeToken.Server.JsonOutput
import FreeToken.Prefill.ImageChunks
import FreeToken.Spill.StateBoundaries
import FreeToken.Speculation.Occurrences
import FreeToken.Server.ToolNames
import FreeToken.KvCache.PageCompaction
import FreeToken.KvCache.PageConservation
import FreeToken.KvCache.SessionRestore
import FreeToken.Server.AnthropicStream
import FreeToken.Server.ChatStream
import FreeToken.Server.ResponsesStream
import FreeToken.Tokenizer.DetokenizeRuns
