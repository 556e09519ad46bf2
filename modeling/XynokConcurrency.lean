import XynokConcurrency.Lib.Machine
import XynokConcurrency.Lib.ClaimRing
import XynokConcurrency.Lib.Holdings
import XynokConcurrency.Utils.Cursors
import XynokConcurrency.Utils.QueueBatching
import XynokConcurrency.Utils.SpinLock
import XynokConcurrency.Utils.Latch
import XynokConcurrency.ThreadPool.WorkerQueue
import XynokConcurrency.ThreadPool.WorkerQueueInv
import XynokConcurrency.ThreadPool.SlotOwnership
import XynokConcurrency.ThreadPool.QueueContents
import XynokConcurrency.ThreadPool.WorkerQueueSpec
import XynokConcurrency.ThreadPool.StealVerdicts
import XynokConcurrency.ThreadPool.Calls
import XynokConcurrency.ThreadPool.Shared
import XynokConcurrency.ThreadPool.Programs
import XynokConcurrency.ThreadPool.Stacks
import XynokConcurrency.ThreadPool.Lifecycle
import XynokConcurrency.ThreadPool.Contexts
import XynokConcurrency.ThreadPool.Activity
import XynokConcurrency.ThreadPool.CallReturn
import XynokConcurrency.ThreadPool.Shutdown
import XynokConcurrency.ThreadPool.Locks
import XynokConcurrency.ThreadPool.LockOrder
import XynokConcurrency.ThreadPool.SleepRegistrations
import XynokConcurrency.ThreadPool.JobSteps
import XynokConcurrency.ThreadPool.QueueMoves
import XynokConcurrency.ThreadPool.QueueState
import XynokConcurrency.ThreadPool.JobPlaces
import XynokConcurrency.ThreadPool.Helpers
import XynokConcurrency.ThreadPool.JobLife
import XynokConcurrency.ThreadPool.JobPools
import XynokConcurrency.ThreadPool.PoolDrop
import XynokConcurrency.ThreadPool.ScopeSteps
import XynokConcurrency.ThreadPool.BatchAssignment
import XynokConcurrency.ThreadPool.BatchCalls
import XynokConcurrency.ThreadPool.BatchStacks
import XynokConcurrency.ThreadPool.BatchIterators
import XynokConcurrency.ThreadPool.BatchPublication
import XynokConcurrency.ThreadPool.ScopeCalls
import XynokConcurrency.ThreadPool.Tickets
import XynokConcurrency.ThreadPool.JobBodies
import XynokConcurrency.ThreadPool.ScopeEnd
import XynokConcurrency.ThreadPool.Captures
import XynokConcurrency.ThreadPool.PanicCell
import XynokConcurrency.ThreadPool.HostInbox
import XynokConcurrency.ThreadPool.RunTask
import XynokConcurrency.Collection.SpmcRingBufferFifo
import XynokConcurrency.Collection.SpmcSlotOwnership
import XynokConcurrency.Collection.SpmcAtomicFifo
import XynokConcurrency.Collection.SpmcHandles
import XynokConcurrency.Collection.SpmcDelivery
import XynokConcurrency.Collection.SpmcLength
import XynokConcurrency.Collection.SpmcWaiting
import XynokConcurrency.Collection.WrappingCursors
