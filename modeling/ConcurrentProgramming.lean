import ConcurrentProgramming.Fibers.Mutex
import ConcurrentProgramming.Fibers.WaitGroup
import ConcurrentProgramming.Fast.Shutdown
import ConcurrentProgramming.Futures.SharedState
import ConcurrentProgramming.Futures.Strand
import ConcurrentProgramming.Fast.WorkStealingQueue
import ConcurrentProgramming.Futures.Chain
import ConcurrentProgramming.Fibers.Ownership
import ConcurrentProgramming.Fast.WaitIdle
import ConcurrentProgramming.Fibers.CondVar
import ConcurrentProgramming.Fast.Drain
import ConcurrentProgramming.Compute.Outstanding
import ConcurrentProgramming.Coroutine.Reclaim
import ConcurrentProgramming.Sync.QueueSpinLock
import ConcurrentProgramming.Sync.TicketLock
import ConcurrentProgramming.Sync.CyclicBarrier
import ConcurrentProgramming.Sync.BlockingQueue
import ConcurrentProgramming.Sync.QueueRun
import ConcurrentProgramming.Fast.Overflow
import ConcurrentProgramming.Fast.Balance
import ConcurrentProgramming.Fast.Batches
import ConcurrentProgramming.Fast.Starvation
import ConcurrentProgramming.Futures.PooledStrand
import ConcurrentProgramming.Futures.All
import ConcurrentProgramming.Futures.FirstOf
import ConcurrentProgramming.Futures.Recover
import ConcurrentProgramming.Futures.Rethrow
import ConcurrentProgramming.Fast.IdleCounter
import ConcurrentProgramming.Fibers.GroupFlag
import ConcurrentProgramming.Fibers.GroupTeardown
import ConcurrentProgramming.Compute.FirstPool
import ConcurrentProgramming.Futures.Played
import ConcurrentProgramming.Coroutine.Standalone
import ConcurrentProgramming.Fibers.OnePending
import ConcurrentProgramming.Sync.CondVar
import ConcurrentProgramming.Sync.Philosopher
import ConcurrentProgramming.Sync.Mutexed
import ConcurrentProgramming.Sync.Mutex
import ConcurrentProgramming.Fibers.StackAllocator
import ConcurrentProgramming.Compute.Serving
import ConcurrentProgramming.Compute.Progress
import ConcurrentProgramming.Fast.Ledger
import ConcurrentProgramming.Fast.AtRest
import ConcurrentProgramming.Fibers.SpinFutex
import ConcurrentProgramming.Futures.GetResult
import ConcurrentProgramming.Sync.Future
import ConcurrentProgramming.Fast.LockFree
import ConcurrentProgramming.Sync.TrickyLock
