import Bop.Queue.Linearizable
import Bop.Queue.Guarded
import Bop.JobSystem.State
import Bop.JobSystem.Step
import Bop.JobSystem.Ledger
import Bop.JobSystem.Refinement
import Bop.JobSystem.Ownership
import Bop.JobSystem.Accounting
import Bop.JobSystem.Handles
import Bop.JobSystem.Shutdown
import Bop.JobSystem.Pool
import Bop.JobSystem.Constructor
import Bop.JobSystem.Continuation
import Bop.JobSystem.Affinity
import Bop.JobSystem.Indices
import Bop.JobSystem.Stealing
import Bop.JobSystem.Cascade
import Bop.JobSystem.CascadeRuns
import Bop.Util.RecursiveSpinLock
import Bop.Basic.Lifetime
import Bop.Basic.Countdown
import Bop.Util.Function
import Bop.Util.Function.Lifetime
import Bop.Util.Function.Copy
import Bop.Util.Function.Binding
import Bop.Coroutine.Handle
import Bop.Coroutine.Generator
import Bop.Coroutine.Iteration
import Bop.Coroutine.GeneratorOwnership
import Bop.Coroutine.CoJob
import Bop.Basic.Integral
import Bop.Coroutine.RangeFor
import Bop.Coroutine.GeneratorFunctions
import Bop.Basic.Slots
import Bop.Main.Capture
import Bop.Util.Curry
import Bop.JobSystem.Chain
import Bop.JobSystem.ChainRuns
import Bop.JobSystem.Pointers
import Bop.JobSystem.Fresh
import Bop.JobSystem.Transparency
import Bop.JobSystem.Locked
import Bop.Basic.Behaviour
import Bop.JobSystem.Barrier
import Bop.JobSystem.Waiting
import Bop.JobSystem.Load
import Bop.JobSystem.Liveness
import Bop.Basic.Json
import Bop.Basic.Recorder
import Bop.JobSystem.TraceLog
import Bop.JobSystem.Wait
import Bop.Basic.TaskPool
import Bop.JobSystem.Executions
import Bop.JobSystem.Serving
import Bop.JobSystem.Balance
import Bop.Basic.Spinning
import Bop.Queue.Progress
import Bop.Basic.Mutex
import Bop.Util.Spinlock
import Bop.Util.RecursiveSpinLock.Progress
import Bop.Main.CaptureThreads
import Bop.JobSystem.Deadlock
import Bop.Coroutine.Iterators
