import MoeInfinity.Lib.Imperative
import MoeInfinity.Lib.Runs
import MoeInfinity.Python
import MoeInfinity.Serving.Sequence
import MoeInfinity.Serving.KvCache
import MoeInfinity.Serving.AllocatorSpec
import MoeInfinity.Serving.KvCacheSpec
import MoeInfinity.Serving.Lifecycle
import MoeInfinity.Serving.Schedule
import MoeInfinity.Serving.ScheduleSpec
import MoeInfinity.Serving.ScheduleInv
import MoeInfinity.Serving.ScheduleCall
import MoeInfinity.Serving.ScheduleOps
import MoeInfinity.Serving.Recovery
import MoeInfinity.Serving.Batch
import MoeInfinity.Serving.ModelRunner
import MoeInfinity.Serving.Engine
import MoeInfinity.Serving.EngineInv
import MoeInfinity.Serving.EngineStep
import MoeInfinity.Serving.Selection
import MoeInfinity.Serving.Feeding
import MoeInfinity.Serving.Greedy
import MoeInfinity.Runtime.PagedAttention
import MoeInfinity.Memory.Blocks
import MoeInfinity.Memory.KvManager
import MoeInfinity.Engine.Transfer
import MoeInfinity.Memory.SwapRecords
import MoeInfinity.Memory.KvManagerSpec
import MoeInfinity.Engine.Schedule
import MoeInfinity.Engine.KvOps
import MoeInfinity.Engine.SwapBlocks
import MoeInfinity.Engine.TransferRuns
import MoeInfinity.Engine.Moves
import MoeInfinity.Engine.Threads
import MoeInfinity.Engine.Offload
import MoeInfinity.Entrypoints.EventStream
import MoeInfinity.Serving.Queues
import MoeInfinity.Serving.Pool
import MoeInfinity.Serving.Occupancy
import MoeInfinity.Serving.Progress
import MoeInfinity.Serving.Pending
import MoeInfinity.Serving.Alone
import MoeInfinity.Entrypoints.Requests
import MoeInfinity.Engine.GpuOps
import MoeInfinity.Engine.QueueMachine
import MoeInfinity.Engine.BlockCounts
import MoeInfinity.Engine.ScheduleCalls
import MoeInfinity.Engine.Reprefill
import MoeInfinity.Engine.PrefixReuse
import MoeInfinity.Serving.PrefixCaching
import MoeInfinity.Serving.Delivery
import MoeInfinity.Serving.Streams
import MoeInfinity.Serving.Solo
import MoeInfinity.Serving.ManagerRecords
import MoeInfinity.Core.AioHandle
import MoeInfinity.Core.AioContext
import MoeInfinity.Core.AioInvariant
import MoeInfinity.Core.AioOrder
import MoeInfinity.Core.TensorIndex
import MoeInfinity.Core.TensorHandle
import MoeInfinity.Core.NodeBuffer
import MoeInfinity.Core.MemoryPool
import MoeInfinity.Lib.Backtrack
import MoeInfinity.Utils.HfConfig
import MoeInfinity.Lib.Dict
import MoeInfinity.Runtime.Topology
import MoeInfinity.Runtime.LayerAgreement
import MoeInfinity.Serving.KvCacheCalls
import MoeInfinity.Lib.Packed
import MoeInfinity.Serving.PackedBatch
import MoeInfinity.Serving.PackedRunner
import MoeInfinity.Lib.JsonText
import MoeInfinity.Lib.Utf8
import MoeInfinity.Serving.IncrementalWriter
import MoeInfinity.Core.NodeCode
import MoeInfinity.Core.Holders
import MoeInfinity.Core.ExecState
import MoeInfinity.Core.Acquisition
import MoeInfinity.Core.Exclusive
import MoeInfinity.Core.OnDemand
import MoeInfinity.Core.Stages
import MoeInfinity.Core.Overload
import MoeInfinity.Engine.Admission
import MoeInfinity.Lib.Nucleus
import MoeInfinity.Serving.TopP
import MoeInfinity.Memory.OffloadingPolicy
import MoeInfinity.Memory.CpuBlockCache
import MoeInfinity.Serving.StopStrings
import MoeInfinity.Lib.LinkedList
import MoeInfinity.Memory.FreeQueue
import MoeInfinity.Memory.KvCalls
import MoeInfinity.Engine.GenerationLoop
import MoeInfinity.Engine.GenerationRun
import MoeInfinity.Entrypoints.NativeGenerate
import MoeInfinity.Core.Wakeups
import MoeInfinity.Core.CacheBooks
import MoeInfinity.Core.LocalDispatch
import MoeInfinity.Core.ModelTopology
import MoeInfinity.Core.Eviction
import MoeInfinity.Serving.ContextpilotCircuitBreaker
import MoeInfinity.Core.LfuCache
import MoeInfinity.Core.CachingAllocator
import MoeInfinity.Kernel.MarlinGemm
import MoeInfinity.Runtime.KvLayout
import MoeInfinity.Runtime.PrefillIsolation
import MoeInfinity.Lib.SlidingWindow
import MoeInfinity.Entrypoints.Auth
import MoeInfinity.Runtime.ExpertIds
import MoeInfinity.Lib.Grouping
import MoeInfinity.Runtime.TopologyPartition
import MoeInfinity.Models.ExpertHostStore
import MoeInfinity.Models.OfficialOffload
import MoeInfinity.Core.DirectFileReader
import MoeInfinity.Core.ChunkedRead
import MoeInfinity.Lib.Grid
import MoeInfinity.Lib.Strided
import MoeInfinity.Kernel.DecodeAttention
import MoeInfinity.Kernel.PagedAttentionOps
import MoeInfinity.Kernel.FusedQkv
import MoeInfinity.Kernel.FusedFfn
import MoeInfinity.Kernel.Mxfp4Gemm
import MoeInfinity.Lib.OnlineSoftmax
