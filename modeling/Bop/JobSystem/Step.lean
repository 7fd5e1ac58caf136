import Bop.JobSystem.State
import Bop.Basic.Transition

set_option autoImplicit false

/-! # The steps of the job system

A step of a thread is a piece of `job/job_system.cpp`, `job/job_system.inl` or `job/job.inl`:
every read of `m_NumThreads`, `m_Shutdown` and `m_Continuation`, every operation of a queue,
every `fetch_sub` is a step of its own. Two steps take more than one access together:
`construct`, which fills a storage that no other thread works on, and the hand-over of the
parent to a continuation.

`step` runs one action. What is not determined by the state is in the action: what user code
calls, when a work ends, and which address the memory resource returns.
-/

namespace Bop.JobSystem

/-! ## Frames of the state -/

/-- Worker `i` goes on at `pc`. -/
def State.goto (s : State) (i : Nat) (pc : Pc) : State :=
  { s with worker := Function.update s.worker i { s.worker i with pc := pc } }

/-- The same, with the job it got from a queue or from the continuation of `via`. -/
def State.gotoVia (s : State) (i : Nat) (pc : Pc) (via : Option Work) : State :=
  { s with worker := Function.update s.worker i { s.worker i with pc := pc, via := via } }

def State.setCall (s : State) (t : Tid) (c : Call) : State :=
  { s with call := Function.update s.call t c }

def State.setJob (s : State) (a : Addr) (j : Job) : State :=
  { s with jobs := Function.update s.jobs a j }

def State.record (s : State) (e : Event) : State := { s with log := e :: s.log }

/-- User code got a reference to the storage `a` for the job of `w`. -/
def State.Referenced (s : State) (w : Work) (a : Addr) : Prop :=
  .scheduled w a ∈ s.log ∨ .returned w (some a) ∈ s.log

instance (s : State) (w : Work) (a : Addr) : Decidable (s.Referenced w a) :=
  inferInstanceAs (Decidable (_ ∨ _))

/-! ## schedule and then -/

def createJob (s : State) (t : Tid) (fresh : Addr) : State × Addr :=
  -- first see if we have anything we can recycle
  match JobQueueNonThreadsafe.pop s.store (.recyclingBin t) with
  | (some result, store) => -- re-use a previously allocated job
      ({ s with
        store := store.clearNext result
        jobs := Function.update s.jobs result (s.jobs result).reset }, result)
  | (none, store) => -- do an actual allocation in that case
      ({ s with
        store := store.clearNext fresh
        jobs := Function.update s.jobs fresh {}
        live := fresh :: s.live
        log := .allocated fresh :: s.log }, fresh)

def construct (s : State) (t : Tid) (parent : Option Addr) (threadIndex : Option Nat)
    (fresh : Addr) : State × Addr :=
  let parentWork := parent.map fun p => (s.jobs p).work
  let (s, result) := createJob s t fresh
  ({ s with
    jobs := Function.update s.jobs result
      { s.jobs result with
        parent := parent
        threadIndex := threadIndex
        work := s.nextWork }
    nextWork := s.nextWork + 1
    log := .constructed s.nextWork result parentWork threadIndex :: s.log }, result)

/-- `JobSystem::schedule` up to `schedule_work`. -/
def schedule (s : State) (t : Tid) (parent : Option Addr) (threadIndex : Option Nat)
    (fresh : Addr) : State :=
  let (s, work) := construct s t parent threadIndex fresh
  s.setCall t (.route work)

/-- `Job::then` up to the write of `m_Continuation`: constructed, not scheduled. -/
def jobThen (s : State) (t : Tid) (job : Addr) (of : Work) (threadIndex : Option Nat)
    (fresh : Addr) : State :=
  let (s, work) := construct s t none threadIndex fresh
  s.setCall t (.attach job of work)

/-- The rest of `schedule_work` and of `Job::then`. -/
def callStep (s : State) (t : Tid) : Option State :=
  match s.call t with
  | .idle => none
  | .route work =>
      match (s.jobs work).threadIndex with
      | none => some (s.setCall t (.balance work))
      | some k =>
          some (s.setCall t (if k ≥ s.numThreads then .balance work else .pushLocal work))
  | .balance work =>
      let tidx := succ32 (s.tidx t)
      some { s.setCall t (.pushGlobal work) with
        tidx := Function.update s.tidx t (if tidx ≥ s.numThreads then 0 else tidx) }
  | .pushGlobal work =>
      some { (s.setCall t .idle).record (.scheduled (s.jobs work).work work) with
        store := JobQueue.push s.store (.globalQueue (s.tidx t)) work }
  | .pushLocal work =>
      some { (s.setCall t .idle).record (.scheduled (s.jobs work).work work) with
        store := JobQueue.push s.store (.localQueue t.threadIndex) work }
  | .attach job of work =>
      let w := (s.jobs work).work
      some (((s.setJob job { s.jobs job with continuation := some work }).setCall t
        (.reread job w)).record (.attached of w))
  | .reread job w => some ((s.setCall t .idle).record (.returned w (s.jobs job).continuation))

/-! ## job_completed and recycle -/

def recycle (s : State) (t : Tid) (work : Addr) : State :=
  if JobQueueNonThreadsafe.size s.store (.recyclingBin t) ≤ kRecyclingCapacity then
    { s.record (.recycled (s.jobs work).work) with
      store := JobQueueNonThreadsafe.push s.store (.recyclingBin t) work } -- tag for re-use
  else
    { s.record (.recycled (s.jobs work).work) with
      store := JobQueueNonThreadsafe.push s.store (.garbageBin t) work } -- tag as garbage

/-- A call of `job_completed` returned: the next one, which waited for it, recycles its job;
`none` when the outermost call returned. -/
def unwind : List Addr → Option Completion
  | [] => none
  | job :: callers => some (.recycle job callers)

def completionStep (s : State) (t : Tid) : Completion → State × Option Completion
  | .fetchSub job callers =>
      let remaining := (s.jobs job).numChildren
      let s' := (s.setJob job { s.jobs job with numChildren := pred32 remaining }).record
        (.fetchSub (s.jobs job).work remaining callers.isEmpty)
      let s' := match callers with
        | [] => s'
        | child :: _ => s'.record (.completed (s'.jobs child).work)
      (s', if remaining ≤ 1 then some (.ascend job callers) else unwind callers)
  | .ascend job callers =>
      match (s.jobs job).parent with
      | some parent => (s, some (.fetchSub parent (job :: callers)))
      | none => (s.record (.completed (s.jobs job).work), some (.recycle job callers))
  | .recycle job callers => (recycle s t job, unwind callers)

/-! ## The worker -/

/-- Propagate the parent job to the continuation. -/
def handOver (s : State) (currentJob : Addr) (continuation : Option Addr) : State :=
  match continuation, (s.jobs currentJob).parent with
  | some c, some p =>
      let s := s.setJob p { s.jobs p with numChildren := succ32 (s.jobs p).numChildren }
      s.setJob c { s.jobs c with parent := some p }
  | _, _ => s

def Resource.queue (i : Nat) : Resource → QueueId
  | .globalQueue => .globalQueue i
  | .localQueue => .localQueue i
  | .recyclingBin => .recyclingBin (.worker i)
  | .garbageBin => .garbageBin (.worker i)

def Resource.pop (i : Nat) (st : Store QueueId Addr) :
    Resource → Option Addr × Store QueueId Addr
  | .globalQueue => JobQueue.pop st (.globalQueue i)
  | .localQueue => JobQueue.pop st (.localQueue i)
  | .recyclingBin => JobQueueNonThreadsafe.pop st (.recyclingBin (.worker i))
  | .garbageBin => JobQueueNonThreadsafe.pop st (.garbageBin (.worker i))

def Resource.clear (i : Nat) (st : Store QueueId Addr) : Resource → Store QueueId Addr
  | .globalQueue => (JobQueue.clear st (.globalQueue i)).2
  | .localQueue => (JobQueue.clear st (.localQueue i)).2
  | .recyclingBin => (JobQueueNonThreadsafe.clear st (.recyclingBin (.worker i))).2
  | .garbageBin => (JobQueueNonThreadsafe.clear st (.garbageBin (.worker i))).2

/-- Where a worker goes on after it deallocated a resource. -/
def Resource.next : Resource → Pc
  | .globalQueue => .drain .localQueue
  | .localQueue => .drain .recyclingBin
  | .recyclingBin => .drain .garbageBin
  | .garbageBin => .countdown

/-- `allocator.deallocate(job, 1)`; the call of `allocator.destroy(job)` before it is
commented out in the source. -/
def deallocate (s : State) (job : Addr) : State :=
  { s.record (.deallocated job) with live := s.live.erase job }

/-- One step of `JobSystem::worker`. Inside `m_Work()` it is the work's turn. -/
def workerStep (s : State) (i : Nat) : Option State :=
  let w := s.worker i
  match w.pc with
  | .start => -- the static is initialized by the first worker that gets here
      some { s.goto i .arrive with
        remainingWorkers := some (s.remainingWorkers.getD s.numThreads) }
  | .arrive => some { s.goto i .spin with remainingWorkers := s.remainingWorkers.map pred32 }
  | .spin => some (if s.remainingWorkers.getD 0 > 0 then s else s.goto i .stealInit)
  | .stealInit =>
      some { s with
        worker := Function.update s.worker i
          { w with pc := .loop, stealFrom := (i + 1) % s.numThreads } }
  | .loop => some (s.goto i (if s.shutdown then .drain .globalQueue else .popLocal))
  | .popLocal =>
      match JobQueue.pop s.store (.localQueue i) with
      | (none, store) => some { s.goto i .popGlobal with store := store }
      | (some job, store) => some { s.gotoVia i (.stealCount (some job)) none with store := store }
  | .popGlobal =>
      let (job, store) := JobQueue.pop s.store (.globalQueue i)
      some { s.gotoVia i (.stealCount job) none with store := store }
  | .stealCount currentJob => some (s.goto i (.stealTest currentJob (pred32 s.numThreads)))
  | .stealTest currentJob n =>
      match currentJob with
      | some job => some (s.goto i (.execute (some job)))
      | none =>
          some (s.goto i (if pred32 n > 0 then .stealNext (pred32 n) else .execute none))
  | .stealNext n =>
      let stealFrom := succ32 w.stealFrom
      some { s with
        worker := Function.update s.worker i
          { w with
            pc := .stealPop n
            stealFrom := if stealFrom ≥ s.numThreads then 0 else stealFrom } }
  | .stealPop n =>
      let (job, store) := JobQueue.pop s.store (.globalQueue w.stealFrom)
      some { s.gotoVia i (.stealTest job n) none with store := store }
  | .execute none => some (s.goto i .idle)
  | .execute (some job) =>
      some ((s.goto i (.running job)).record (.started (s.jobs job).work i w.via))
  | .running _ => none
  | .storeTrace job =>
      some { s with
        worker := Function.update s.worker i
          { w with pc := .readContinuation job, noWorkCounter := 0 }
        traces := Function.update s.traces i (i :: s.traces i) }
  | .readContinuation job =>
      some ((s.gotoVia i (.handOver job (s.jobs job).continuation)
        (some (s.jobs job).work)).record (.continuationRead (s.jobs job).work))
  | .handOver job continuation =>
      some ((handOver s job continuation).goto i (.complete (.fetchSub job []) continuation))
  | .complete c continuation =>
      match completionStep s (.worker i) c with
      | (s, some c) => some (s.goto i (.complete c continuation))
      | (s, none) => some (s.goto i (.execute continuation)) -- l_CurrentJob = continuation;
  | .idle =>
      if w.noWorkCounter + 1 > kLoopsUntilGC then
        some { s with
          worker := Function.update s.worker i
            { w with pc := .loop, noWorkCounter := (w.noWorkCounter + 1) / 2 }
          store := (JobQueueNonThreadsafe.clear s.store (.garbageBin (.worker i))).2 }
      else
        some { s with
          worker := Function.update s.worker i
            { w with pc := .loop, noWorkCounter := w.noWorkCounter + 1 } }
  | .drain r =>
      match r.pop i s.store with
      | (some job, store) => some { deallocate s job with store := store }
      | (none, store) => some { s.goto i (.drainClear r) with store := store }
  | .drainClear r =>
      some { (s.goto i r.next).record (.drained i r) with store := r.clear i s.store }
  | .countdown =>
      some { s.goto i (if s.numThreads = 1 then .saveTracelog else .done) with
        numThreads := pred32 s.numThreads }
  | .saveTracelog => some ((s.goto i .setComplete).record (.saved i))
  | .setComplete =>
      some { (s.goto i .done).record .shutdownCompleted with shutdownComplete := true }
  | .done => none

/-! ## The system -/

/-- The thread is in user code, where it may call the job system. -/
def UserCode (s : State) : Tid → Prop
  | .client c => s.call (.client c) = .idle
  | .worker i => s.call (.worker i) = .idle ∧ i < s.size ∧ ∃ job, (s.worker i).pc = .running job

instance (s : State) : ∀ t, Decidable (UserCode s t)
  | .client c => inferInstanceAs (Decidable (s.call (.client c) = .idle))
  | .worker i =>
      have : Decidable (∃ job, (s.worker i).pc = .running job) :=
        match h : (s.worker i).pc with
        | .running job => .isTrue ⟨job, rfl⟩
        | .start | .arrive | .spin | .stealInit | .loop | .popLocal | .popGlobal
        | .stealCount _ | .stealTest _ _ | .stealNext _ | .stealPop _ | .execute _
        | .storeTrace _ | .readContinuation _ | .handOver _ _ | .complete _ _ | .idle
        | .drain _ | .drainClear _ | .countdown | .saveTracelog | .setComplete | .done =>
            .isFalse (by simp)
      inferInstanceAs (Decidable (_ ∧ _ ∧ _))

inductive Action
  /-- user code calls `schedule(fn, parent, thread_index)`; a parent is a job with its work -/
  | schedule (t : Tid) (parent : Option (Work × Addr)) (threadIndex : Option Nat) (fresh : Addr)
  /-- user code calls `then(fn, thread_index)` on the reference `job` to the job of `of` -/
  | jobThen (t : Tid) (of : Work) (job : Addr) (threadIndex : Option Nat) (fresh : Addr)
  /-- the next step of the call a thread is in -/
  | call (t : Tid)
  /-- user code calls `shutdown()` -/
  | shutdown (t : Tid)
  /-- the work that worker `i` runs returns, or throws, which `Job::operator()` catches -/
  | finish (i : Nat)
  /-- the next step of worker `i` -/
  | work (i : Nat)
  deriving DecidableEq

/-- One step. The memory resource returns storage that is not in use, and a reference is used
only after it was returned. -/
def step (s : State) : Action → Option State
  | .schedule t parent threadIndex fresh =>
      if UserCode s t ∧ fresh ∉ s.live ∧ (∀ p ∈ parent, s.Referenced p.1 p.2) then
        some (schedule s t (parent.map Prod.snd) threadIndex fresh)
      else none
  | .jobThen t of job threadIndex fresh =>
      if UserCode s t ∧ fresh ∉ s.live ∧ s.Referenced of job then
        some (jobThen s t job of threadIndex fresh)
      else none
  | .call t => callStep s t
  | .shutdown t => if UserCode s t then some { s with shutdown := true } else none
  | .finish i =>
      match (s.worker i).pc with
      | .running job =>
          if s.call (.worker i) = .idle ∧ i < s.size then
            some ((s.goto i (.storeTrace job)).record (.finished (s.jobs job).work))
          else none
      | _ => none
  | .work i => if i < s.size then workerStep s i else none

end Bop.JobSystem
