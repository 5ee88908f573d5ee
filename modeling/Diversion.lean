import Diversion.Lib.Transition
import Diversion.Lib.Pool
import Diversion.LinkedSlab
import Diversion.EncodeAt
import Diversion.Lib.Substitution
import Diversion.ThreadReloc
import Diversion.Lib.Extent
import Diversion.Lib.PartitionPoint
import Diversion.RangeAllocator
import Diversion.AllocatorHistory
import Diversion.Temp
import Diversion.TempConcurrent
import Diversion.TempOnce
import Diversion.Scoped
import Diversion.ScopedPointer
import Diversion.Lib.Mutex
import Diversion.PodMutex
import Diversion.PodVec
import Diversion.ProcessContext
import Diversion.Install
import Diversion.ThunkTable
import Diversion.ContextAcquire
import Diversion.Lib.Chain
import Diversion.ThunkChain
import Diversion.AllocNear
import Diversion.ShortJump
import Diversion.Protection
import Diversion.RegionSearch
import Diversion.OsAllocNear
import Diversion.TrampolineReach
import Diversion.ProcStat
import Diversion.DetourRace
import Diversion.Lib.ByteMemory
import Diversion.RegisterPlaces
import Diversion.PatchedThreads
import Diversion.Lib.RefCount
import Diversion.Suspend
import Diversion.SuspendInv
import Diversion.SuspendCount
import Diversion.FreeBytes
import Diversion.Coalescing
import Diversion.RegionIter
import Diversion.SlabHistory
import Diversion.PodVecHistory
import Diversion.GprWrites
import Diversion.UniqueKeys
import Diversion.MapsFormat
import Diversion.DisasmWindow
import Diversion.HookForest
import Diversion.SuspendStops
import Diversion.SuspendHeap
import Diversion.Lib.WordMemory
import Diversion.XSave
import Diversion.ContextSave
import Diversion.ContextFrame
import Diversion.ContextRestore
import Diversion.HookAccesses
import Diversion.HookRegisters
import Diversion.FaithfulHook
import Diversion.Lib.Simulation
import Diversion.PatchedCode
import Diversion.CallOriginal
import Diversion.Lib.SharedObject
import Diversion.NamedMapping
import Diversion.HookCalls
