import Dgos.L1Data.BasicTreeRun
import Dgos.L1Data.HashTableMap
import Dgos.L1Data.Leb128
import Dgos.L1Data.MemOps
import Dgos.L1Data.PriQueue
import Dgos.L1Data.PrintkInt
import Dgos.L1Data.VectorRun
import Dgos.L1Data.Vsnprintf
import Dgos.L2Memory.BootMallocRun
import Dgos.L2Memory.ContigAllocRun
import Dgos.L2Memory.HeapRun
import Dgos.L2Memory.MmapPhysical
import Dgos.L2Memory.Mremap
import Dgos.L2Memory.MunmapRight
import Dgos.L2Memory.PhysAllocRun
import Dgos.L3Files.BootFat32Read
import Dgos.L3Files.Fat32Alloc
import Dgos.L3Files.Iso9660Lookup
import Dgos.L3Files.TmpfsMount
import Dgos.L4System.ElfRelocRun
import Dgos.L4System.EthQueue
import Dgos.L4System.GdbBreakpoint
import Dgos.L4System.GdbReceive
import Dgos.L4System.SysFd
import Dgos.L4System.TimeUnix
import Dgos.L4System.VirtioQueueRun
import Dgos.L5Concurrency.Futex
import Dgos.L5Concurrency.FutexTable
import Dgos.L5Concurrency.Mutex
import Dgos.L5Concurrency.Pipe
import Dgos.L5Concurrency.PthreadMutex
import Dgos.L5Concurrency.ResumeRing
import Dgos.L5Concurrency.Rwlock
