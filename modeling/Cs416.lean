import Cs416.Vm.FlatRefine
import Cs416.Vm.TlbCoherence
import Cs416.Vm.TlbFifo
import Cs416.Vm.Atomicity
import Cs416.Vm.FrameAccounting
import Cs416.Vm.FreeEffect
import Cs416.Vm.PageSizes
import Cs416.Vm.MatMult
import Cs416.Vm.EvictedSlot
import Cs416.Vm.FrameHandout
import Cs416.Vm.WorkingSet
import Cs416.Vm.LockRefinement
import Cs416.Rufs.Remount
import Cs416.Rufs.MakeAtomicity
import Cs416.Rufs.DeviceOverflow
import Cs416.Rufs.SparseRead
import Cs416.Rufs.FileSize
import Cs416.Rufs.BlockIndex
import Cs416.Rufs.Listing
import Cs416.Rufs.InodeTable
import Cs416.Rufs.CrashSafety
import Cs416.Rufs.Quota
import Cs416.Threads.MutualExclusion
import Cs416.Threads.LostWakeup
import Cs416.Threads.SignalMask
import Cs416.Threads.PreemptedUpdate
import Cs416.Threads.DispatchSafety
import Cs416.Threads.ShortestJob
import Cs416.Threads.Demotion
import Cs416.Threads.VirtualRuntime
import Cs416.Threads.PriorityQueue
import Cs416.Threads.FairDispatch
import Cs416.Threads.HeapBounds
import Cs416.Threads.ThreadTable
import Cs416.Threads.LockerUnlocks
import Cs416.Threads.ExitWakes
import Cs416.Threads.Turns
import Cs416.Threads.Benchmarks
import Cs416.Threads.MlfqRoundRobin
import Cs416.Threads.Deadlock
