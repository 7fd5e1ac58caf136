import Bop.Queue.Store

set_option autoImplicit false

/-! # The state of the job system

The static members of `JobSystem` (`job/job_system.h`), the storage of the jobs, the
thread-local variables, and for each thread where it is in the code it executes. The
`m_Next` links of the jobs are in the queue store (`Queue/Store.lean`).

Two kinds of threads run: the workers `0, 1, ..` that execute `JobSystem::worker`, and
clients, which call the job system from the outside. Both execute user code that may call
`schedule`, `Job::then` and `shutdown`: a client at any time, a worker while it is inside
`m_Work()`.
-/

namespace Bop

/-- The address of a job's storage. -/
abbrev Addr := Nat

/-- The callable stored in `m_Work`. Callables are numbered from `1` in the order in which
they are handed to `construct`, so a number names one scheduled or attached work; `0` is the
empty `std::function`. -/
abbrev Work := Nat

/-- `class Job` (`job/job.h`), without the link. -/
structure Job where
  numChildren : Nat := 1
  parent : Option Addr := none
  continuation : Option Addr := none
  threadIndex : Option Nat := none
  work : Work := 0
  deriving DecidableEq

/-- `Job::reset`, without the link. -/
def Job.reset (j : Job) : Job :=
  { j with
    numChildren := 1
    parent := none
    continuation := none }

/-- The loop test of `Job::wait`: the job is polled as long as it holds. -/
def Job.unfinished (j : Job) : Bool := j.numChildren != 0

namespace JobSystem

/-- `JobSystem::k_RecyclingCapacity` -/
def kRecyclingCapacity : Nat := 2 ^ 10

/-- `k_LoopsUntilGC` of `JobSystem::worker` -/
def kLoopsUntilGC : Nat := 2 ^ 8

inductive Tid
  | worker (i : Nat)
  | client (c : Nat)
  deriving DecidableEq

/-- `l_ThreadIndex`: a worker has its index, every other thread the initial `0`. -/
def Tid.threadIndex : Tid → Nat
  | .worker i => i
  | .client _ => 0

/-- The queues and bins that hold jobs. -/
inductive QueueId
  | globalQueue (i : Nat)     -- m_GlobalQueues[i]
  | localQueue (i : Nat)      -- m_LocalQueues[i]
  | recyclingBin (t : Tid)    -- l_RecyclingBin of the thread t
  | garbageBin (t : Tid)      -- l_GarbageBin of the thread t
  deriving DecidableEq

/-! ## Control points -/

/-- Where a thread is in a call of `schedule` or `Job::then`. -/
inductive Call
  | idle                                        -- in user code
  | route (work : Addr)                         -- the test of m_ThreadIndex in schedule_work
  | balance (work : Addr)                       -- ++tidx; if (tidx >= m_NumThreads) tidx = 0;
  | pushGlobal (work : Addr)                    -- m_GlobalQueues[tidx].push(work);
  | pushLocal (work : Addr)                     -- m_LocalQueues[l_ThreadIndex].push(work);
  | attach (job : Addr) (of : Work) (work : Addr) -- m_Continuation = ..; of the job of `of`
  | reread (job : Addr) (w : Work)              -- return *m_Continuation;
  deriving DecidableEq

/-- Where a thread is in `job_completed(job)`, with the jobs whose `job_completed` is
waiting for the one of their parent, innermost first. -/
inductive Completion
  | fetchSub (job : Addr) (callers : List Addr) -- job->m_NumChildren.fetch_sub(1)
  | ascend (job : Addr) (callers : List Addr)   -- if (job->m_Parent) job_completed(..);
  | recycle (job : Addr) (callers : List Addr)  -- recycle(job); return true;
  deriving DecidableEq

/-- The resources a worker deallocates when it leaves its loop, in order. -/
inductive Resource
  | globalQueue
  | localQueue
  | recyclingBin
  | garbageBin
  deriving DecidableEq

/-- Where a worker is in `JobSystem::worker`, with the local variables it still reads. -/
inductive Pc
  | start                                       -- static remaining_workers = m_NumThreads
  | arrive                                      -- remaining_workers.fetch_sub(1)
  | spin                                        -- while (remaining_workers.load() > 0)
  | stealInit                                   -- steal_from = .. % m_NumThreads.load()
  | loop                                        -- while (!m_Shutdown)
  | popLocal                                    -- m_LocalQueues[l_ThreadIndex].pop()
  | popGlobal                                   -- m_GlobalQueues[l_ThreadIndex].pop()
  | stealCount (currentJob : Option Addr)       -- numStealAttempts = m_NumThreads - 1
  | stealTest (currentJob : Option Addr) (n : Nat) -- !l_CurrentJob && (--numStealAttempts > 0)
  | stealNext (n : Nat)                         -- if (++steal_from >= m_NumThreads) ..
  | stealPop (n : Nat)                          -- m_GlobalQueues[steal_from].pop()
  | execute (currentJob : Option Addr)          -- while (l_CurrentJob) { (*l_CurrentJob)();
  | running (currentJob : Addr)                 -- inside m_Work()
  | storeTrace (currentJob : Addr)              -- store_trace(..); l_no_work_counter = 0;
  | readContinuation (currentJob : Addr)        -- continuation = l_CurrentJob->m_Continuation
  | handOver (currentJob : Addr) (continuation : Option Addr) -- if (continuation) { .. }
  | complete (c : Completion) (continuation : Option Addr)    -- job_completed(l_CurrentJob);
  | idle                                        -- if (++l_no_work_counter > k_LoopsUntilGC)
  | drain (r : Resource)                        -- the pop loop of deallocate_job_queue
  | drainClear (r : Resource)                   -- jq.clear() of deallocate_job_queue
  | countdown                                   -- m_NumThreads.fetch_sub(1)
  | saveTracelog                                -- save_tracelog()
  | setComplete                                 -- m_ShutdownComplete = true
  | done
  deriving DecidableEq

/-- The variables of a worker. `via` is not in the code: the work whose continuation the
worker is following, if it did not get its job from a queue. -/
structure Worker where
  pc : Pc := .start
  stealFrom : Nat := 0
  noWorkCounter : Nat := 0
  via : Option Work := none
  deriving DecidableEq

/-! ## The record of a run -/

/-- What happened, for stating properties of runs. -/
inductive Event
  | allocated (a : Addr)
  | deallocated (a : Addr)
  | destroyed (a : Addr)
  | constructed (w : Work) (a : Addr) (parent : Option Work) (threadIndex : Option Nat)
  | scheduled (w : Work) (a : Addr)             -- schedule() returned the reference to a
  | attached (of w : Work)                      -- then() wrote the m_Continuation of `of`
  | returned (w : Work) (result : Option Addr)  -- then() returned a reference, or null
  | started (w : Work) (i : Nat) (via : Option Work)
  | finished (w : Work)
  | continuationRead (w : Work)
  | fetchSub (w : Work) (remaining : Nat) (own : Bool)
  | completed (w : Work)                        -- at zero, and the parent was told
  | recycled (w : Work)
  | drained (i : Nat) (r : Resource)
  | saved (i : Nat)
  | shutdownCompleted
  deriving DecidableEq

structure State where
  /-- the length of `m_GlobalQueues`, `m_LocalQueues`, `m_Mutexes` and `m_Traces` -/
  size : Nat
  numThreads : Nat
  shutdown : Bool
  shutdownComplete : Bool
  remainingWorkers : Option Nat
  jobs : Addr → Job
  store : Store QueueId Addr
  /-- the storages handed out by `m_MemoryResource` and not returned yet -/
  live : List Addr
  /-- the `m_ThreadIndex` of the entries of `m_Traces[i]`, newest first -/
  traces : Nat → List Nat
  tidx : Tid → Nat
  call : Tid → Call
  worker : Nat → Worker
  /-- the number of the next callable -/
  nextWork : Work
  /-- newest first -/
  log : List Event

/-- The state after the constructor started `n` workers. -/
def init (n : Nat) : State where
  size := n
  numThreads := n
  shutdown := false
  shutdownComplete := false
  remainingWorkers := none
  jobs := fun _ => {}
  store := ⟨fun _ => none, fun _ => {}⟩
  live := []
  traces := fun _ => []
  tidx := fun _ => 0
  call := fun _ => .idle
  worker := fun _ => {}
  nextWork := 1
  log := []

end JobSystem

end Bop
