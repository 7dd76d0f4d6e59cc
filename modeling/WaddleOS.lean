import WaddleOS.Base.Memory
import WaddleOS.Base.Chain
import WaddleOS.Base.Run
import WaddleOS.Base.Updates
import WaddleOS.Lib.String
import WaddleOS.Heap.Header
import WaddleOS.Heap.Alloc
import WaddleOS.Heap.Layout
import WaddleOS.Heap.Edit
import WaddleOS.Heap.Malloc
import WaddleOS.Heap.Coalesce
import WaddleOS.Heap.Grow
import WaddleOS.Heap.Realloc
import WaddleOS.Heap.Adjacent
import WaddleOS.Heap.Client
import WaddleOS.Heap.Runs
import WaddleOS.Heap.Safety
import WaddleOS.Heap.Resize
import WaddleOS.Heap.Capacity
import WaddleOS.Heap.BestFit
import WaddleOS.Heap.FreeOrder
import WaddleOS.Heap.Contract
import WaddleOS.Base.Bits
import WaddleOS.Base.FirstFit
import WaddleOS.Drivers.Bitmap
import WaddleOS.Drivers.BitArray
import WaddleOS.Drivers.BitAccess
import WaddleOS.Paging.Pools
import WaddleOS.Paging.Grants
import WaddleOS.Paging.Stores
import WaddleOS.Paging.Usable
import WaddleOS.Paging.Metadata
import WaddleOS.Paging.Packed
import WaddleOS.Paging.Tables
import WaddleOS.Paging.Tree
import WaddleOS.Paging.Mapping
import WaddleOS.Paging.Translate
import WaddleOS.Paging.Disjoint
import WaddleOS.Paging.Mapped
import WaddleOS.Paging.FiniteMap
import WaddleOS.Paging.Exhaustion
import WaddleOS.Loader.LongMode
import WaddleOS.Paging.Boot
import WaddleOS.Base.Ring
import WaddleOS.Sched.List
import WaddleOS.Sched.Sequence
import WaddleOS.Lib.Term
import WaddleOS.Lib.Screen
import WaddleOS.Base.Numeral
import WaddleOS.Lib.Printf
import WaddleOS.Lib.Format
import WaddleOS.Drivers.Interrupts
import WaddleOS.Drivers.Delivery
import WaddleOS.Base.Stack
import WaddleOS.Drivers.Frames
import WaddleOS.Lib.Multiboot
import WaddleOS.Drivers.MultibootParser
import WaddleOS.Loader.Sectors
import WaddleOS.Loader.Segments
import WaddleOS.Loader.BootInfo
import WaddleOS.Loader.BootRun
import WaddleOS.Loader.Rounds
import WaddleOS.Loader.Handover
import WaddleOS.Paging.MemoryMap
import WaddleOS.Base.Records
import WaddleOS.Lib.Overlap
import WaddleOS.Lib.Compare
import WaddleOS.Loader.Requests
import WaddleOS.Loader.ProgramHeaders
import WaddleOS.Paging.Refusal
import WaddleOS.Paging.Reserved
import WaddleOS.Paging.TableBounds
import WaddleOS.Sched.Ownership
import WaddleOS.Base.Writers
import WaddleOS.Lib.Serial
import WaddleOS.Lib.Wire
import WaddleOS.Drivers.Return
import WaddleOS.Drivers.Pic
import WaddleOS.Drivers.Service
import WaddleOS.Drivers.Pit
import WaddleOS.Heap.Demand
import WaddleOS.Loader.Main
import WaddleOS.Loader.Passage
import WaddleOS.Paging.Supply
import WaddleOS.Heap.Confined
import WaddleOS.Paging.Shared
import WaddleOS.Paging.Guarded
