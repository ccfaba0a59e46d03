import Apfmalloc.Base.Bits
import Apfmalloc.Base.Bytes
import Apfmalloc.Base.Chain
import Apfmalloc.Base.Runs
import Apfmalloc.Base.Groups
import Apfmalloc.Base.Assoc
import Apfmalloc.Base.Tally
import Apfmalloc.Base.Post
import Apfmalloc.Base.Values
import Apfmalloc.Base.Arena
import Apfmalloc.Base.Sole
import Apfmalloc.Base.BitField
import Apfmalloc.MemInfo
import Apfmalloc.SizeClasses
import Apfmalloc.SizeClassInit
import Apfmalloc.Desc
import Apfmalloc.ThreadCache
import Apfmalloc.State
import Apfmalloc.DescList
import Apfmalloc.Alloc
import Apfmalloc.CountSb
import Apfmalloc.CacheOps
import Apfmalloc.ComputeIndex
import Apfmalloc.Kernel
import Apfmalloc.Malloc
import Apfmalloc.BinRefine
import Apfmalloc.BinFetch
import Apfmalloc.FetchCount
import Apfmalloc.PartialList
import Apfmalloc.Heap
import Apfmalloc.HeapOps
import Apfmalloc.HeapGrow
import Apfmalloc.HeapShrink
import Apfmalloc.HeapMalloc
import Apfmalloc.AllocRun
import Apfmalloc.LargeAlloc
import Apfmalloc.PageEntries
import Apfmalloc.Flush
import Apfmalloc.AnchorCas
import Apfmalloc.AnchorWord
import Apfmalloc.SharedSb
import Apfmalloc.SharedSbRuns
import Apfmalloc.FlushCache
import Apfmalloc.Refill
import Apfmalloc.RetDrop
import Apfmalloc.AlignedAlloc
import Apfmalloc.AllocTotal
import Apfmalloc.RustAllocator
import Apfmalloc.Realloc
import Apfmalloc.ReserveAlign
import Apfmalloc.AnchorRun
import Apfmalloc.CountPartial
import Apfmalloc.DescAccount
import Apfmalloc.Recycle
import Apfmalloc.SingleAccess
import Apfmalloc.HashMap
import Apfmalloc.MapRun
import Apfmalloc.Pages
import Apfmalloc.Apf.Trace
import Apfmalloc.Apf.Reuse
import Apfmalloc.Apf.ReuseCounter
import Apfmalloc.Apf.Liveness
import Apfmalloc.RawArray
import Apfmalloc.AutoPtr
import Apfmalloc.Array
import Apfmalloc.ArrayIter
import Apfmalloc.ArrayRun
import Apfmalloc.ArrayDrop
import Apfmalloc.ArrayDeque
import Apfmalloc.DequeBack
import Apfmalloc.BitArray
import Apfmalloc.PosixMemalign
import Apfmalloc.CApi
import Apfmalloc.Records
import Apfmalloc.Bootstrap
import Apfmalloc.BootstrapRefine
import Apfmalloc.RangeMapping
import Apfmalloc.Apf.Tuner
import Apfmalloc.Apf.TunerGuard
import Apfmalloc.Apf.Schedule
import Apfmalloc.Apf.HeapTrace
