import NickOS3.Foundation.Runs
import NickOS3.Foundation.Links
import NickOS3.Foundation.Tiling
import NickOS3.Heap.Ownership
import NickOS3.Heap.SegmentChain
import NickOS3.Heap.FreeList
import NickOS3.Heap.Bounds
import NickOS3.Heap.Termination
import NickOS3.Heap.Coalescing
import NickOS3.Lib.Refinement
import NickOS3.Lib.KeyValueMap
import NickOS3.Boot.MemoryDetection
import NickOS3.Filesystem.RoundTrip
import NickOS3.Lib.Locality
import NickOS3.Thread.Acknowledge
import NickOS3.Thread.Levels
import NickOS3.Thread.Dispatch
import NickOS3.Thread.Protection
import NickOS3.Thread.Locks
import NickOS3.Thread.SchedulerInvariant
import NickOS3.Thread.Reclaim
import NickOS3.Thread.Semaphores
import NickOS3.Paging.Ledger
import NickOS3.Paging.Privilege
import NickOS3.Paging.Failure
import NickOS3.Paging.Contiguity
import NickOS3.Paging.Clearing
import NickOS3.Paging.Translation
import NickOS3.Paging.HeapPages
import NickOS3.Lib.Numeral
import NickOS3.Lib.Screen
import NickOS3.Thread.Sleep
import NickOS3.Filesystem.Reading
import NickOS3.Thread.Elements
import NickOS3.Paging.BootRoutines
import NickOS3.Boot.Bss
import NickOS3.Thread.Discipline
import NickOS3.Thread.Sleeping
import NickOS3.Thread.Transparency
import NickOS3.Thread.Wakeups
import NickOS3.Boot.BootLog
import NickOS3.Interrupt.CoreDump
import NickOS3.Interrupt.Exceptions
import NickOS3.Interrupt.Pic
import NickOS3.Thread.Pages
import NickOS3.Lib.SharedScreen
import NickOS3.Filesystem.Pieces
