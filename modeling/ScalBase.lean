import ScalBase.Base
import ScalBase.Base.Rounding
import ScalBase.Hashes
import ScalBase.Foundation.Loop
import ScalBase.Foundation.Run
import ScalBase.Foundation.Ranking
import ScalBase.Foundation.Cyclic
import ScalBase.Foundation.Slots
import ScalBase.Foundation.RobinHood
import ScalBase.Foundation.KeyMap
import ScalBase.Foundation.Delivery
import ScalBase.Foundation.LinkedList
import ScalBase.Foundation.Block
import ScalBase.Foundation.BoundedList
import ScalBase.Foundation.Tiling
import ScalBase.Foundation.Nesting
import ScalBase.Foundation.Records
import ScalBase.Foundation.Memory
import ScalBase.Foundation.GridPaths
import ScalBase.Foundation.Chunks
import ScalBase.HashMaps.Model
import ScalBase.HashMaps.Invariant
import ScalBase.HashMaps.Refinement
import ScalBase.HashMaps.ProbeLengths
import ScalBase.HashMaps.FullTables
import ScalBase.HashMaps.Replace
import ScalBase.HashMaps.Memory
import ScalBase.HashMaps.Interface
import ScalBase.HashMaps.DHashMap
import ScalBase.HashMaps.Termination
import ScalBase.StringHashMap.Model
import ScalBase.StringHashMap.Conservation
import ScalBase.StringHashMap.Refinement
import ScalBase.StringHashMap.Growth
import ScalBase.StringHashMap.Ownership
import ScalBase.StringHashMap.Interface
import ScalBase.Handles
import ScalBase.SparseArray
import ScalBase.SparseArray.Adds
import ScalBase.DArray.Model
import ScalBase.DArray.Edits
import ScalBase.DArray.Stack
import ScalBase.DArray.Interface
import ScalBase.StaticList
import ScalBase.StaticList.Interface
import ScalBase.Vec2i
import ScalBase.BitMap
import ScalBase.BHeap
import ScalBase.BHeap.Walk
import ScalBase.BHeap.Priority
import ScalBase.BHeap.Conservation
import ScalBase.BHeap.Sifts
import ScalBase.BHeap.Misuse
import ScalBase.Pool
import ScalBase.Pool.Reset
import ScalBase.Pool.Assertions
import ScalBase.DoublyLinked
import ScalBase.SinglyLinked
import ScalBase.SinglyLinked.Lists
import ScalBase.LinkedArray
import ScalBase.QueueThreaded
import ScalBase.QueueThreaded.Emptiness
import ScalBase.QueueThreaded.OneConsumer
import ScalBase.Jobs.Model
import ScalBase.Jobs.Balance
import ScalBase.Jobs.Dispatch
import ScalBase.Jobs.Threads
import ScalBase.Jobs.Wakeups
import ScalBase.Jobs.Progress
import ScalBase.Profiler
import ScalBase.Profiler.Report
import ScalBase.Events
import ScalBase.Arena
import ScalBase.Arena.Bookkeeping
import ScalBase.Arena.Pushes
import ScalBase.Arena.Stack
import ScalBase.Strings.Model
import ScalBase.Strings.Text
import ScalBase.Strings.Fixed
import ScalBase.Strings.Bounds
import ScalBase.Strings.Join
import ScalBase.Strings.Allocated
import ScalBase.Strings.Allocators
import ScalBase.Strings.Sizes
import ScalBase.Strings.ArenaGrowth
import ScalBase.Strings.InMemory
import ScalBase.Strings.OnArena
import ScalBase.HeapAllocator.Model
import ScalBase.HeapAllocator.FreeLists
import ScalBase.HeapAllocator.Insertion
import ScalBase.HeapAllocator.WellFormed
import ScalBase.HeapAllocator.Calls
import ScalBase.HeapAllocator.Runs
import ScalBase.HeapAllocator.Buckets
import ScalBase.HeapAllocator.Bytes
import ScalBase.HeapAllocator.Realloc
import ScalBase.HeapAllocator.Requests
import ScalBase.HeapAllocator.Contents
import ScalBase.HeapAllocator.Classes
import ScalBase.HeapAllocator.Alignment
import ScalBase.HeapAllocator.DoubleFree
