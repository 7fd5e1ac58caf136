import Bop.JobSystem.Step

set_option autoImplicit false

/-! # What a step leaves as it is

A step of a worker changes nothing of the other threads, and the calls of `schedule` and
`Job::then` change nothing of the workers. Both never take `m_Shutdown` back.
-/

namespace Bop.JobSystem

variable {s s' : State} {i : Nat} {t : Tid} {x : Action}

/-- The parts of the state that no worker writes, and the variables of the other workers. -/
structure WorkerFrame (s : State) (i : Nat) (s' : State) : Prop where
  call : s'.call = s.call
  size : s'.size = s.size
  shutdown : s'.shutdown = s.shutdown
  nextWork : s'.nextWork = s.nextWork
  tidx : s'.tidx = s.tidx
  worker : ∀ j ≠ i, s'.worker j = s.worker j

theorem WorkerFrame.refl (s : State) (i : Nat) : WorkerFrame s i s :=
  ⟨rfl, rfl, rfl, rfl, rfl, fun _ _ => rfl⟩

/-- `recycle` pushes the job to one of the two bins of the thread. -/
theorem recycle_eq (s : State) (t : Tid) (a : Addr) :
    ∃ q, (q = .recyclingBin t ∨ q = .garbageBin t) ∧
      recycle s t a =
        { s.record (.recycled (s.jobs a).work) with store := s.store.push q a } := by
  unfold recycle
  split
  · exact ⟨.recyclingBin t, Or.inl rfl, rfl⟩
  · exact ⟨.garbageBin t, Or.inr rfl, rfl⟩

theorem recycle_frame (a : Addr) : WorkerFrame s i (recycle s t a) ∧
    (recycle s t a).worker = s.worker := by
  obtain ⟨q, -, hrec⟩ := recycle_eq s t a
  rw [hrec]
  exact ⟨⟨rfl, rfl, rfl, rfl, rfl, fun _ _ => rfl⟩, rfl⟩

theorem completionStep_frame (c : Completion) :
    WorkerFrame s i (completionStep s t c).1 ∧ (completionStep s t c).1.worker = s.worker := by
  cases c with
  | fetchSub a callers =>
      cases callers with
      | nil => exact ⟨⟨rfl, rfl, rfl, rfl, rfl, fun _ _ => rfl⟩, rfl⟩
      | cons b callers => exact ⟨⟨rfl, rfl, rfl, rfl, rfl, fun _ _ => rfl⟩, rfl⟩
  | ascend a callers =>
      simp only [completionStep]
      split
      · exact ⟨⟨rfl, rfl, rfl, rfl, rfl, fun _ _ => rfl⟩, rfl⟩
      · exact ⟨⟨rfl, rfl, rfl, rfl, rfl, fun _ _ => rfl⟩, rfl⟩
  | recycle a callers => exact recycle_frame a

theorem handOver_frame (a : Addr) (c : Option Addr) :
    WorkerFrame s i (handOver s a c) ∧ (handOver s a c).worker = s.worker := by
  unfold handOver
  split
  · exact ⟨⟨rfl, rfl, rfl, rfl, rfl, fun _ _ => rfl⟩, rfl⟩
  · exact ⟨⟨rfl, rfl, rfl, rfl, rfl, fun _ _ => rfl⟩, rfl⟩

theorem WorkerFrame.goto {s₁ : State} {pc : Pc} (h : WorkerFrame s i s₁) :
    WorkerFrame s i (s₁.goto i pc) where
  call := h.call
  size := h.size
  shutdown := h.shutdown
  nextWork := h.nextWork
  tidx := h.tidx
  worker j hj := by
    show Function.update s₁.worker i _ j = _
    rw [Function.update_of_ne hj, h.worker j hj]

/-! ## The steps of a worker

`WorkerMove` says once what `workerStep` does: a constructor for each branch, with the test that
leads to it and the state after it. What is true of all steps of a worker is proved by cases on
it. -/

/-- **What a step of worker `i` can do**, by the statement the worker is at. -/
inductive WorkerMove (s : State) (i : Nat) : State → Prop
  | start (hpc : (s.worker i).pc = .start) :
      WorkerMove s i { s.goto i .arrive with
        remainingWorkers := some (s.remainingWorkers.getD s.numThreads) }
  | arrive (hpc : (s.worker i).pc = .arrive) :
      WorkerMove s i { s.goto i .spin with remainingWorkers := s.remainingWorkers.map pred32 }
  | spin (hpc : (s.worker i).pc = .spin) (h : s.remainingWorkers.getD 0 > 0) : WorkerMove s i s
  | released (hpc : (s.worker i).pc = .spin) (h : ¬ s.remainingWorkers.getD 0 > 0) :
      WorkerMove s i (s.goto i .stealInit)
  | stealInit (hpc : (s.worker i).pc = .stealInit) :
      WorkerMove s i { s with
        worker := Function.update s.worker i
          { s.worker i with pc := .loop, stealFrom := (i + 1) % s.numThreads } }
  | stay (hpc : (s.worker i).pc = .loop) (h : s.shutdown = false) :
      WorkerMove s i (s.goto i .popLocal)
  | leave (hpc : (s.worker i).pc = .loop) (h : s.shutdown = true) :
      WorkerMove s i (s.goto i (.drain .globalQueue))
  | noLocal {st : Store QueueId Addr} (hpc : (s.worker i).pc = .popLocal)
      (hpop : s.store.pop (.localQueue i) = (none, st)) :
      WorkerMove s i { s.goto i .popGlobal with store := st }
  | popLocal {a : Addr} {st : Store QueueId Addr} (hpc : (s.worker i).pc = .popLocal)
      (hpop : s.store.pop (.localQueue i) = (some a, st)) :
      WorkerMove s i { s.gotoVia i (.stealCount (some a)) none with store := st }
  | popGlobal {o : Option Addr} {st : Store QueueId Addr} (hpc : (s.worker i).pc = .popGlobal)
      (hpop : s.store.pop (.globalQueue i) = (o, st)) :
      WorkerMove s i { s.gotoVia i (.stealCount o) none with store := st }
  | stealCount {o : Option Addr} (hpc : (s.worker i).pc = .stealCount o) :
      WorkerMove s i (s.goto i (.stealTest o (pred32 s.numThreads)))
  | hasJob {a : Addr} {n : Nat} (hpc : (s.worker i).pc = .stealTest (some a) n) :
      WorkerMove s i (s.goto i (.execute (some a)))
  | stealOn {n : Nat} (hpc : (s.worker i).pc = .stealTest none n) (h : pred32 n > 0) :
      WorkerMove s i (s.goto i (.stealNext (pred32 n)))
  | stealEnd {n : Nat} (hpc : (s.worker i).pc = .stealTest none n) (h : ¬ pred32 n > 0) :
      WorkerMove s i (s.goto i (.execute none))
  | stealNext {n : Nat} (hpc : (s.worker i).pc = .stealNext n) :
      WorkerMove s i { s with
        worker := Function.update s.worker i
          { s.worker i with
            pc := .stealPop n
            stealFrom := if succ32 (s.worker i).stealFrom ≥ s.numThreads then 0
              else succ32 (s.worker i).stealFrom } }
  | stealPop {n : Nat} {o : Option Addr} {st : Store QueueId Addr}
      (hpc : (s.worker i).pc = .stealPop n)
      (hpop : s.store.pop (.globalQueue (s.worker i).stealFrom) = (o, st)) :
      WorkerMove s i { s.gotoVia i (.stealTest o n) none with store := st }
  | noJob (hpc : (s.worker i).pc = .execute none) : WorkerMove s i (s.goto i .idle)
  | execute {a : Addr} (hpc : (s.worker i).pc = .execute (some a)) :
      WorkerMove s i ((s.goto i (.running a)).record
        (.started (s.jobs a).work i (s.worker i).via))
  | storeTrace {a : Addr} (hpc : (s.worker i).pc = .storeTrace a) :
      WorkerMove s i { s with
        worker := Function.update s.worker i
          { s.worker i with pc := .readContinuation a, noWorkCounter := 0 }
        traces := Function.update s.traces i (i :: s.traces i) }
  | readContinuation {a : Addr} (hpc : (s.worker i).pc = .readContinuation a) :
      WorkerMove s i ((s.gotoVia i (.handOver a (s.jobs a).continuation)
        (some (s.jobs a).work)).record (.continuationRead (s.jobs a).work))
  | handOver {a : Addr} {o : Option Addr} (hpc : (s.worker i).pc = .handOver a o) :
      WorkerMove s i ((JobSystem.handOver s a o).goto i (.complete (.fetchSub a []) o))
  | complete {c c' : Completion} {o : Option Addr} {s₁ : State}
      (hpc : (s.worker i).pc = .complete c o)
      (hc : completionStep s (.worker i) c = (s₁, some c')) :
      WorkerMove s i (s₁.goto i (.complete c' o))
  | completed {c : Completion} {o : Option Addr} {s₁ : State}
      (hpc : (s.worker i).pc = .complete c o)
      (hc : completionStep s (.worker i) c = (s₁, none)) :
      WorkerMove s i (s₁.goto i (.execute o))
  | collect (hpc : (s.worker i).pc = .idle)
      (h : (s.worker i).noWorkCounter + 1 > kLoopsUntilGC) :
      WorkerMove s i { s with
        worker := Function.update s.worker i
          { s.worker i with pc := .loop, noWorkCounter := ((s.worker i).noWorkCounter + 1) / 2 }
        store := (JobQueueNonThreadsafe.clear s.store (.garbageBin (.worker i))).2 }
  | idle (hpc : (s.worker i).pc = .idle)
      (h : ¬ (s.worker i).noWorkCounter + 1 > kLoopsUntilGC) :
      WorkerMove s i { s with
        worker := Function.update s.worker i
          { s.worker i with pc := .loop, noWorkCounter := (s.worker i).noWorkCounter + 1 } }
  | drain {r : Resource} {a : Addr} {st : Store QueueId Addr}
      (hpc : (s.worker i).pc = .drain r) (hpop : s.store.pop (r.queue i) = (some a, st)) :
      WorkerMove s i { deallocate s a with store := st }
  | drained {r : Resource} {st : Store QueueId Addr} (hpc : (s.worker i).pc = .drain r)
      (hpop : s.store.pop (r.queue i) = (none, st)) :
      WorkerMove s i { s.goto i (.drainClear r) with store := st }
  | drainClear {r : Resource} (hpc : (s.worker i).pc = .drainClear r) :
      WorkerMove s i { (s.goto i r.next).record (.drained i r) with
        store := (s.store.clear (r.queue i)).2 }
  | countdown (hpc : (s.worker i).pc = .countdown) :
      WorkerMove s i { s.goto i (if s.numThreads = 1 then .saveTracelog else .done) with
        numThreads := pred32 s.numThreads }
  | saveTracelog (hpc : (s.worker i).pc = .saveTracelog) :
      WorkerMove s i ((s.goto i .setComplete).record (.saved i))
  | setComplete (hpc : (s.worker i).pc = .setComplete) :
      WorkerMove s i { (s.goto i .done).record .shutdownCompleted with shutdownComplete := true }

theorem Resource.pop_eq (r : Resource) (i : Nat) (st : Store QueueId Addr) :
    r.pop i st = st.pop (r.queue i) := by
  cases r <;> rfl

theorem Resource.clear_eq (r : Resource) (i : Nat) (st : Store QueueId Addr) :
    r.clear i st = (st.clear (r.queue i)).2 := by
  cases r <;> rfl

theorem workerStep_move (hs : workerStep s i = some s') : WorkerMove s i s' := by
  cases hpc : (s.worker i).pc with
  | running | done =>
      simp only [workerStep, hpc] at hs
      cases hs
  | start =>
      simp only [workerStep, hpc] at hs
      cases hs
      exact .start hpc
  | arrive =>
      simp only [workerStep, hpc] at hs
      cases hs
      exact .arrive hpc
  | spin =>
      simp only [workerStep, hpc] at hs
      by_cases h : s.remainingWorkers.getD 0 > 0
      · rw [if_pos h] at hs
        cases hs
        exact .spin hpc h
      · rw [if_neg h] at hs
        cases hs
        exact .released hpc h
  | stealInit =>
      simp only [workerStep, hpc] at hs
      cases hs
      exact .stealInit hpc
  | loop =>
      simp only [workerStep, hpc] at hs
      cases hs
      cases h : s.shutdown with
      | false => exact .stay hpc h
      | true => exact .leave hpc h
  | popLocal =>
      simp only [workerStep, hpc, JobQueue.pop] at hs
      rcases hpop : s.store.pop (.localQueue i) with ⟨_ | a, st⟩
      · rw [hpop] at hs
        cases hs
        exact .noLocal hpc hpop
      · rw [hpop] at hs
        cases hs
        exact .popLocal hpc hpop
  | popGlobal =>
      simp only [workerStep, hpc] at hs
      cases hs
      exact .popGlobal hpc rfl
  | stealCount o =>
      simp only [workerStep, hpc] at hs
      cases hs
      exact .stealCount hpc
  | stealTest o n =>
      cases o with
      | some a =>
          simp only [workerStep, hpc] at hs
          cases hs
          exact .hasJob hpc
      | none =>
          simp only [workerStep, hpc] at hs
          cases hs
          by_cases h : pred32 n > 0
          · rw [if_pos h]
            exact .stealOn hpc h
          · rw [if_neg h]
            exact .stealEnd hpc h
  | stealNext n =>
      simp only [workerStep, hpc] at hs
      cases hs
      exact .stealNext hpc
  | stealPop n =>
      simp only [workerStep, hpc] at hs
      cases hs
      exact .stealPop hpc rfl
  | execute o =>
      cases o with
      | none =>
          simp only [workerStep, hpc] at hs
          cases hs
          exact .noJob hpc
      | some a =>
          simp only [workerStep, hpc] at hs
          cases hs
          exact .execute hpc
  | storeTrace a =>
      simp only [workerStep, hpc] at hs
      cases hs
      exact .storeTrace hpc
  | readContinuation a =>
      simp only [workerStep, hpc] at hs
      cases hs
      exact .readContinuation hpc
  | handOver a o =>
      simp only [workerStep, hpc] at hs
      cases hs
      exact .handOver hpc
  | complete c o =>
      simp only [workerStep, hpc] at hs
      rcases hc : completionStep s (.worker i) c with ⟨s₁, _ | c'⟩
      · rw [hc] at hs
        cases hs
        exact .completed hpc hc
      · rw [hc] at hs
        cases hs
        exact .complete hpc hc
  | idle =>
      simp only [workerStep, hpc] at hs
      by_cases h : (s.worker i).noWorkCounter + 1 > kLoopsUntilGC
      · rw [if_pos h] at hs
        cases hs
        exact .collect hpc h
      · rw [if_neg h] at hs
        cases hs
        exact .idle hpc h
  | drain r =>
      simp only [workerStep, hpc, r.pop_eq] at hs
      rcases hpop : s.store.pop (r.queue i) with ⟨_ | a, st⟩
      · rw [hpop] at hs
        cases hs
        exact .drained hpc hpop
      · rw [hpop] at hs
        cases hs
        exact .drain hpc hpop
  | drainClear r =>
      simp only [workerStep, hpc, r.clear_eq] at hs
      cases hs
      exact .drainClear hpc
  | countdown =>
      simp only [workerStep, hpc] at hs
      cases hs
      exact .countdown hpc
  | saveTracelog =>
      simp only [workerStep, hpc] at hs
      cases hs
      exact .saveTracelog hpc
  | setComplete =>
      simp only [workerStep, hpc] at hs
      cases hs
      exact .setComplete hpc

theorem WorkerMove.step (h : WorkerMove s i s') : workerStep s i = some s' := by
  cases h with
  | spin hpc h | stealOn hpc h | collect hpc h => simp only [workerStep, hpc, if_pos h]
  | released hpc h | stealEnd hpc h | idle hpc h => simp only [workerStep, hpc, if_neg h]
  | stay hpc h => simp only [workerStep, hpc, h, Bool.false_eq_true, if_false]
  | leave hpc h => simp only [workerStep, hpc, h, if_true]
  | noLocal hpc hpop | popLocal hpc hpop | popGlobal hpc hpop | stealPop hpc hpop =>
      simp only [workerStep, hpc, JobQueue.pop, hpop]
  | drain hpc hpop | drained hpc hpop => simp only [workerStep, hpc, Resource.pop_eq, hpop]
  | drainClear hpc => simp only [workerStep, hpc, Resource.clear_eq]
  | complete hpc hc | completed hpc hc => simp only [workerStep, hpc, hc]
  | _ hpc => simp only [workerStep, hpc]

/-- **A worker's step concerns that worker only.** -/
theorem workerStep_frame (hs : workerStep s i = some s') : WorkerFrame s i s' := by
  have hw : ∀ {w : Worker}, ∀ j ≠ i, Function.update s.worker i w j = s.worker j :=
    fun j hj => Function.update_of_ne hj ..
  cases workerStep_move hs with
  | spin => exact .refl s i
  | drain => exact ⟨rfl, rfl, rfl, rfl, rfl, fun _ _ => rfl⟩
  | handOver => exact (handOver_frame _ _).1.goto
  | @complete c c' o s₁ hpc hc | @completed c o s₁ hpc hc =>
      have hframe := (completionStep_frame (s := s) (i := i) (t := .worker i) c).1
      rw [hc] at hframe
      exact hframe.goto
  | _ => exact ⟨rfl, rfl, rfl, rfl, rfl, hw⟩

/-- The events that a call of `schedule` or `Job::then` records. -/
def Event.ofCall : Event → Bool
  | .allocated _ | .constructed _ _ _ _ | .scheduled _ _ | .attached _ _ | .returned _ _ => true
  | _ => false

/-- What the calls do not touch. -/
structure CallFrame (s s' : State) : Prop where
  worker : s'.worker = s.worker
  size : s'.size = s.size
  numThreads : s'.numThreads = s.numThreads
  shutdownComplete : s'.shutdownComplete = s.shutdownComplete
  traces : s'.traces = s.traces
  shutdown : s.shutdown = true → s'.shutdown = true
  log : ∃ es, s'.log = es ++ s.log ∧ ∀ e ∈ es, e.ofCall = true

/-- **Where a new job comes from**: a storage from the recycling bin, or a fresh one. -/
theorem construct_cases (s : State) (t : Tid) (parent : Option Addr) (threadIndex : Option Nat)
    (fresh : Addr) :
    (∃ a st, s.store.pop (.recyclingBin t) = (some a, st) ∧
      construct s t parent threadIndex fresh =
        ({ s with
          store := st.clearNext a
          jobs := Function.update s.jobs a
            { parent := parent, threadIndex := threadIndex, work := s.nextWork }
          nextWork := s.nextWork + 1
          log := .constructed s.nextWork a (parent.map fun p => (s.jobs p).work) threadIndex
            :: s.log }, a)) ∨
    (∃ st, s.store.pop (.recyclingBin t) = (none, st) ∧
      construct s t parent threadIndex fresh =
        ({ s with
          store := st.clearNext fresh
          jobs := Function.update s.jobs fresh
            { parent := parent, threadIndex := threadIndex, work := s.nextWork }
          live := fresh :: s.live
          nextWork := s.nextWork + 1
          log := .constructed s.nextWork fresh (parent.map fun p => (s.jobs p).work) threadIndex
            :: .allocated fresh :: s.log }, fresh)) := by
  rcases hpop : s.store.pop (.recyclingBin t) with ⟨_ | a, st⟩
  · refine Or.inr ⟨st, rfl, ?_⟩
    simp [construct, createJob, JobQueueNonThreadsafe.pop, hpop]
  · refine Or.inl ⟨a, st, rfl, ?_⟩
    simp [construct, createJob, JobQueueNonThreadsafe.pop, hpop, Job.reset]

theorem construct_frame (parent : Option Addr) (threadIndex : Option Nat) (fresh : Addr) :
    CallFrame s (construct s t parent threadIndex fresh).1 := by
  rcases construct_cases s t parent threadIndex fresh with ⟨a, st, -, hc⟩ | ⟨st, -, hc⟩
  · rw [hc]
    exact ⟨rfl, rfl, rfl, rfl, rfl, id, [_], rfl, fun e he => by
      rw [List.mem_singleton.mp he]; rfl⟩
  · rw [hc]
    refine ⟨rfl, rfl, rfl, rfl, rfl, id, [_, _], rfl, fun e he => ?_⟩
    rcases List.mem_pair.mp he with rfl | rfl
    · rfl
    · rfl

theorem CallFrame.setCall {s₁ : State} {c : Call} (h : CallFrame s s₁) :
    CallFrame s (s₁.setCall t c) := { h with }

/-! ## The steps of a call

`CallMove` does for `callStep` what `WorkerMove` does for `workerStep`. -/

/-- **What a step of a call of `t` can do**, by the statement the thread is at. -/
inductive CallMove (s : State) (t : Tid) : State → Prop
  | shared {a : Addr} (hc : s.call t = .route a)
      (h : ∀ k ∈ (s.jobs a).threadIndex, s.numThreads ≤ k) :
      CallMove s t (s.setCall t (.balance a))
  | own {a : Addr} (hc : s.call t = .route a)
      (h : ∃ k ∈ (s.jobs a).threadIndex, k < s.numThreads) :
      CallMove s t (s.setCall t (.pushLocal a))
  | balance {a : Addr} (hc : s.call t = .balance a) :
      CallMove s t { s.setCall t (.pushGlobal a) with
        tidx := Function.update s.tidx t
          (if succ32 (s.tidx t) ≥ s.numThreads then 0 else succ32 (s.tidx t)) }
  | pushGlobal {a : Addr} (hc : s.call t = .pushGlobal a) :
      CallMove s t { (s.setCall t .idle).record (.scheduled (s.jobs a).work a) with
        store := s.store.push (.globalQueue (s.tidx t)) a }
  | pushLocal {a : Addr} (hc : s.call t = .pushLocal a) :
      CallMove s t { (s.setCall t .idle).record (.scheduled (s.jobs a).work a) with
        store := s.store.push (.localQueue t.threadIndex) a }
  | attach {a job : Addr} {of : Work} (hc : s.call t = .attach job of a) :
      CallMove s t (((s.setJob job { s.jobs job with continuation := some a }).setCall t
        (.reread job (s.jobs a).work)).record (.attached of (s.jobs a).work))
  | reread {job : Addr} {w : Work} (hc : s.call t = .reread job w) :
      CallMove s t ((s.setCall t .idle).record (.returned w (s.jobs job).continuation))

theorem callStep_move (hs : callStep s t = some s') : CallMove s t s' := by
  cases hc : s.call t with
  | idle =>
      simp only [callStep, hc] at hs
      cases hs
  | route a =>
      simp only [callStep, hc] at hs
      cases hti : (s.jobs a).threadIndex with
      | none =>
          simp only [hti] at hs
          cases hs
          exact .shared hc (by simp [hti])
      | some k =>
          simp only [hti] at hs
          cases hs
          by_cases hk : k ≥ s.numThreads
          · rw [if_pos hk]
            exact .shared hc (by simpa [hti] using hk)
          · rw [if_neg hk]
            exact .own hc ⟨k, hti, Nat.lt_of_not_le hk⟩
  | balance a =>
      simp only [callStep, hc] at hs
      cases hs
      exact .balance hc
  | pushGlobal a =>
      simp only [callStep, hc] at hs
      cases hs
      exact .pushGlobal hc
  | pushLocal a =>
      simp only [callStep, hc] at hs
      cases hs
      exact .pushLocal hc
  | attach job of a =>
      simp only [callStep, hc] at hs
      cases hs
      exact .attach hc
  | reread job w =>
      simp only [callStep, hc] at hs
      cases hs
      exact .reread hc

theorem CallMove.step (h : CallMove s t s') : callStep s t = some s' := by
  cases h with
  | @shared a hc hti =>
      simp only [callStep, hc]
      cases hk : (s.jobs a).threadIndex with
      | none => rfl
      | some k => exact congrArg (fun c => some (s.setCall t c)) (if_pos (hti k hk))
  | own hc hti =>
      obtain ⟨k, hk, hlt⟩ := hti
      simp only [callStep, hc, Option.mem_def.mp hk]
      exact congrArg (fun c => some (s.setCall t c)) (if_neg (Nat.not_le.mpr hlt))
  | balance hc | attach hc | reread hc => simp only [callStep, hc]
  | pushGlobal hc | pushLocal hc =>
      simp only [callStep, hc]
      rfl

theorem callStep_frame (hs : callStep s t = some s') : CallFrame s s' := by
  have hone : ∀ {e₀ : Event}, e₀.ofCall = true → ∀ e ∈ [e₀], e.ofCall = true :=
    fun h e he => (List.mem_singleton.mp he) ▸ h
  cases callStep_move hs with
  | shared | own | balance => exact ⟨rfl, rfl, rfl, rfl, rfl, id, [], rfl, by simp⟩
  | pushGlobal | pushLocal | attach | reread =>
      exact ⟨rfl, rfl, rfl, rfl, rfl, id, [_], rfl, hone rfl⟩

theorem callStep_call (hs : callStep s t = some s') :
    ∃ c, s'.call = Function.update s.call t c := by
  cases callStep_move hs <;> exact ⟨_, rfl⟩

theorem construct_call (parent : Option Addr) (threadIndex : Option Nat) (fresh : Addr) :
    (construct s t parent threadIndex fresh).1.call = s.call := by
  rcases construct_cases s t parent threadIndex fresh with ⟨a, st, -, hc⟩ | ⟨st, -, hc⟩
  · rw [hc]
  · rw [hc]

/-! ## What an action does -/

section Action

variable {parent : Option (Work × Addr)} {threadIndex : Option Nat} {of : Work} {job fresh : Addr}

theorem step_schedule (hs : step s (.schedule t parent threadIndex fresh) = some s') :
    UserCode s t ∧ fresh ∉ s.live ∧ (∀ p ∈ parent, s.Referenced p.1 p.2) ∧
      s' = schedule s t (parent.map Prod.snd) threadIndex fresh := by
  simp only [step] at hs
  split at hs
  case isFalse => cases hs
  case isTrue h => exact ⟨h.1, h.2.1, h.2.2, (Option.some.inj hs).symm⟩

theorem step_jobThen (hs : step s (.jobThen t of job threadIndex fresh) = some s') :
    UserCode s t ∧ fresh ∉ s.live ∧ s.Referenced of job ∧
      s' = jobThen s t job of threadIndex fresh := by
  simp only [step] at hs
  split at hs
  case isFalse => cases hs
  case isTrue h => exact ⟨h.1, h.2.1, h.2.2, (Option.some.inj hs).symm⟩

theorem step_shutdown (hs : step s (.shutdown t) = some s') :
    UserCode s t ∧ s' = { s with shutdown := true } := by
  simp only [step] at hs
  split at hs
  case isFalse => cases hs
  case isTrue h => exact ⟨h, (Option.some.inj hs).symm⟩

theorem step_finish (hs : step s (.finish i) = some s') :
    ∃ job, (s.worker i).pc = .running job ∧ s.call (.worker i) = .idle ∧ i < s.size ∧
      s' = (s.goto i (.storeTrace job)).record (.finished (s.jobs job).work) := by
  simp only [step] at hs
  split at hs
  case h_2 => cases hs
  case h_1 job hpc =>
    split at hs
    case isFalse => cases hs
    case isTrue h => exact ⟨job, hpc, h.1, h.2, (Option.some.inj hs).symm⟩

theorem step_work (hs : step s (.work i) = some s') :
    i < s.size ∧ workerStep s i = some s' := by
  simp only [step] at hs
  split at hs
  case isFalse => cases hs
  case isTrue hi => exact ⟨hi, hs⟩

end Action

/-- **What a step can be**: a step of a call, the end of a work, or a step of a worker. -/
theorem step_cases (hs : step s x = some s') :
    ((∀ i, x ≠ .work i ∧ x ≠ .finish i) ∧ CallFrame s s') ∨
      (∃ i job, x = .finish i ∧ (s.worker i).pc = .running job ∧
        s.call (.worker i) = .idle ∧ i < s.size ∧
        s' = (s.goto i (.storeTrace job)).record (.finished (s.jobs job).work)) ∨
      ∃ i, x = .work i ∧ i < s.size ∧ workerStep s i = some s' := by
  cases x with
  | schedule t parent threadIndex fresh =>
      obtain ⟨-, -, -, rfl⟩ := step_schedule hs
      exact Or.inl ⟨by simp, (construct_frame _ _ _).setCall⟩
  | jobThen t of job threadIndex fresh =>
      obtain ⟨-, -, -, rfl⟩ := step_jobThen hs
      exact Or.inl ⟨by simp, (construct_frame _ _ _).setCall⟩
  | call t => exact Or.inl ⟨by simp, callStep_frame hs⟩
  | shutdown t =>
      obtain ⟨-, rfl⟩ := step_shutdown hs
      exact Or.inl ⟨by simp, rfl, rfl, rfl, rfl, rfl, fun _ => rfl, [], rfl, by simp⟩
  | finish i =>
      obtain ⟨job, hpc, hc, hi, hs'⟩ := step_finish hs
      exact Or.inr (Or.inl ⟨i, job, rfl, hpc, hc, hi, hs'⟩)
  | work i => exact Or.inr (Or.inr ⟨i, rfl, step_work hs⟩)

/-- Only `construct` hands out the next number of a work. -/
theorem step_nextWork (hsch : ∀ t p ti f, x ≠ .schedule t p ti f)
    (hthen : ∀ t w a ti f, x ≠ .jobThen t w a ti f) (hs : step s x = some s') :
    s'.nextWork = s.nextWork := by
  cases x with
  | schedule t p ti f => exact absurd rfl (hsch t p ti f)
  | jobThen t w a ti f => exact absurd rfl (hthen t w a ti f)
  | call t =>
      have hs' : callStep s t = some s' := hs
      cases callStep_move hs' <;> rfl
  | shutdown t =>
      obtain ⟨-, rfl⟩ := step_shutdown hs
      rfl
  | finish i =>
      obtain ⟨job, -, -, -, rfl⟩ := step_finish hs
      rfl
  | work i => exact (workerStep_frame (step_work hs).2).nextWork

/-- The thread that makes a call, or is in one. -/
def Action.caller : Action → Option Tid
  | .schedule t _ _ _ | .jobThen t _ _ _ _ | .call t | .shutdown t => some t
  | .finish _ | .work _ => none

/-- The calls of the other threads stay where they are. -/
theorem step_call (hx : x.caller ≠ some t) (hs : step s x = some s') :
    s'.call t = s.call t := by
  cases x with
  | schedule u parent threadIndex fresh =>
      have htu : t ≠ u := fun h => hx (congrArg some h.symm)
      obtain ⟨-, -, -, rfl⟩ := step_schedule hs
      show Function.update (construct _ _ _ _ _).1.call u _ t = _
      rw [construct_call, Function.update_of_ne htu]
  | jobThen u of job threadIndex fresh =>
      have htu : t ≠ u := fun h => hx (congrArg some h.symm)
      obtain ⟨-, -, -, rfl⟩ := step_jobThen hs
      show Function.update (construct _ _ _ _ _).1.call u _ t = _
      rw [construct_call, Function.update_of_ne htu]
  | call u =>
      have htu : t ≠ u := fun h => hx (congrArg some h.symm)
      obtain ⟨c, hc⟩ := callStep_call hs
      rw [hc, Function.update_of_ne htu]
  | shutdown u =>
      obtain ⟨-, rfl⟩ := step_shutdown hs
      rfl
  | finish i =>
      obtain ⟨job, -, -, -, rfl⟩ := step_finish hs
      rfl
  | work i => rw [(workerStep_frame (step_work hs).2).call]

/-- The thread that executes the action. -/
def Action.thread : Action → Tid
  | .schedule t _ _ _ | .jobThen t _ _ _ _ | .call t | .shutdown t => t
  | .finish i | .work i => .worker i

theorem Action.caller_ne {t : Tid} (h : x.thread ≠ t) : x.caller ≠ some t := by
  cases x <;> simp_all [thread, caller]

/-- **A step leaves the variables of the other threads as they are.** -/
theorem step_others (hs : step s x = some s') (ht : x.thread ≠ t) :
    s'.call t = s.call t ∧ s'.tidx t = s.tidx t ∧
      ∀ i, t = .worker i → s'.worker i = s.worker i := by
  have hcons : ∀ parent threadIndex fresh,
      (construct s x.thread parent threadIndex fresh).1.tidx = s.tidx := by
    intro parent threadIndex fresh
    rcases construct_cases s x.thread parent threadIndex fresh with
      ⟨a, st, -, hc⟩ | ⟨st, -, hc⟩ <;> rw [hc]
  refine ⟨step_call (Action.caller_ne ht) hs, ?_, ?_⟩
  · cases x with
    | schedule u parent threadIndex fresh =>
        obtain ⟨-, -, -, rfl⟩ := step_schedule hs
        exact congrFun (hcons (parent.map Prod.snd) threadIndex fresh) t
    | jobThen u of job threadIndex fresh =>
        obtain ⟨-, -, -, rfl⟩ := step_jobThen hs
        exact congrFun (hcons none threadIndex fresh) t
    | call u =>
        have hs' : callStep s u = some s' := hs
        cases callStep_move hs' with
        | balance => exact Function.update_of_ne (Ne.symm ht) _ _
        | _ => rfl
    | shutdown u =>
        obtain ⟨-, rfl⟩ := step_shutdown hs
        rfl
    | finish i =>
        obtain ⟨job, -, -, -, rfl⟩ := step_finish hs
        rfl
    | work i => rw [(workerStep_frame (step_work hs).2).tidx]
  · rintro i rfl
    rcases step_cases hs with ⟨-, hf⟩ | ⟨j, job, rfl, -, -, -, rfl⟩ | ⟨j, rfl, -, hw⟩
    · rw [hf.worker]
    · exact Function.update_of_ne (fun hij => ht (congrArg Tid.worker hij.symm)) _ _
    · exact (workerStep_frame hw).worker i fun hij => ht (congrArg Tid.worker hij.symm)

/-- A worker is in a call of `schedule` or `Job::then` only while it runs a work. -/
def State.CallsInWork (s : State) : Prop :=
  ∀ i, s.call (.worker i) ≠ .idle → ∃ job, (s.worker i).pc = .running job

theorem State.CallsInWork.step (h : s.CallsInWork) (hs : step s x = some s') :
    s'.CallsInWork := by
  intro i hcall
  by_cases ht : x.thread = .worker i
  · cases x with
    | schedule t parent threadIndex fresh =>
        obtain rfl : t = .worker i := ht
        obtain ⟨hcode, -, -, rfl⟩ := step_schedule hs
        have hf := (construct_frame (s := s) (t := .worker i) (parent.map Prod.snd) threadIndex
          fresh).worker
        show ∃ job, ((construct s (.worker i) (parent.map Prod.snd) threadIndex fresh).1.worker
          i).pc = _
        rw [hf]
        exact hcode.2.2
    | jobThen t of job threadIndex fresh =>
        obtain rfl : t = .worker i := ht
        obtain ⟨hcode, -, -, rfl⟩ := step_jobThen hs
        have hf := (construct_frame (s := s) (t := .worker i) none threadIndex fresh).worker
        show ∃ job, ((construct s (.worker i) none threadIndex fresh).1.worker i).pc = _
        rw [hf]
        exact hcode.2.2
    | call t =>
        obtain rfl : t = .worker i := ht
        rw [(callStep_frame hs).worker]
        refine h i fun hidle => ?_
        simp only [JobSystem.step, callStep, hidle] at hs
        cases hs
    | shutdown t =>
        obtain ⟨-, rfl⟩ := step_shutdown hs
        exact h i hcall
    | finish j =>
        obtain rfl : j = i := Tid.worker.inj ht
        obtain ⟨job, -, hidle, -, rfl⟩ := step_finish hs
        exact absurd hidle hcall
    | work j =>
        obtain rfl : j = i := Tid.worker.inj ht
        obtain ⟨-, hw⟩ := step_work hs
        rw [(workerStep_frame hw).call] at hcall
        obtain ⟨job, hpc⟩ := h j hcall
        simp only [workerStep, hpc] at hw
        cases hw
  · obtain ⟨hc, -, hw⟩ := step_others hs ht
    rw [hc] at hcall
    rw [hw i rfl]
    exact h i hcall

theorem run_callsInWork {n : Nat} {tr : List (State × Action)}
    (h : Transition.Run step (init n) tr s) : s.CallsInWork :=
  h.invariant (C := fun _ _ => True) (fun _ hi => absurd rfl hi) (fun hI _ hs => hI.step hs)
    (fun _ _ => trivial)

/-! ## Who runs, and who left -/

/-- The number of queues never changes. -/
theorem step_size (hs : step s x = some s') : s'.size = s.size := by
  rcases step_cases hs with ⟨-, hf⟩ | ⟨i, job, -, -, -, -, rfl⟩ | ⟨i, -, -, hw⟩
  · exact hf.size
  · rfl
  · exact (workerStep_frame hw).size

/-- The workers are those below the number of queues; the others never start. -/
theorem worker_outside {n : Nat} {tr : List (State × Action)}
    (h : Transition.Run step (init n) tr s) : s.size = n ∧ ∀ i ≥ n, s.worker i = {} := by
  refine h.invariant (I := fun s => s.size = n ∧ ∀ i ≥ n, s.worker i = {})
    (C := fun _ _ => True) ⟨rfl, fun _ _ => rfl⟩ ?_ (fun _ _ => trivial)
  rintro s x s' ⟨hsize, hout⟩ - hs
  refine ⟨(step_size hs).trans hsize, fun i hi => ?_⟩
  have hne : ∀ {j}, j < s.size → i ≠ j := by omega
  rcases step_cases hs with ⟨-, hf⟩ | ⟨j, job, -, -, -, hj, rfl⟩ | ⟨j, -, hj, hw⟩
  · rw [hf.worker]
    exact hout i hi
  · show Function.update s.worker j _ i = _
    rw [Function.update_of_ne (hne hj)]
    exact hout i hi
  · rw [(workerStep_frame hw).worker i (hne hj)]
    exact hout i hi

/-- Whether a worker has left its execution loop. -/
def Pc.left : Pc → Bool
  | .drain _ | .drainClear _ | .countdown | .saveTracelog | .setComplete | .done => true
  | _ => false

theorem Resource.next_left (r : Resource) : r.next.left = true := by cases r <;> rfl

/-- A worker does not come back into its loop. -/
theorem left_workerStep (hs : workerStep s i = some s') (h : (s.worker i).pc.left = true) :
    (s'.worker i).pc.left = true := by
  have hself : ∀ {w : Worker}, w.pc.left = true →
      (Function.update s.worker i w i).pc.left = true :=
    fun hw => (Function.update_self i _ s.worker).symm ▸ hw
  cases workerStep_move hs with
  | drain => exact h
  | drained | saveTracelog | setComplete => exact hself rfl
  | drainClear => exact hself (Resource.next_left _)
  | countdown =>
      refine hself ?_
      show (if s.numThreads = 1 then Pc.saveTracelog else .done).left = true
      split <;> rfl
  | start hpc | arrive hpc | spin hpc | released hpc | stealInit hpc | stay hpc | leave hpc
  | noLocal hpc | popLocal hpc | popGlobal hpc | stealCount hpc | hasJob hpc | stealOn hpc
  | stealEnd hpc | stealNext hpc | stealPop hpc | noJob hpc | execute hpc | storeTrace hpc
  | readContinuation hpc | handOver hpc | complete hpc | completed hpc | collect hpc | idle hpc =>
      rw [hpc] at h
      cases h

theorem left_step (hs : step s x = some s') (h : (s.worker i).pc.left = true) :
    (s'.worker i).pc.left = true := by
  rcases step_cases hs with ⟨-, hf⟩ | ⟨j, job, -, hpc, -, -, rfl⟩ | ⟨j, -, -, hw⟩
  · rw [hf.worker]
    exact h
  · have hij : i ≠ j := fun hij => by
      rw [hij, hpc] at h
      cases h
    show (Function.update s.worker j _ i).pc.left = true
    rw [Function.update_of_ne hij]
    exact h
  · by_cases hij : i = j
    · subst hij
      exact left_workerStep hw h
    · rw [(workerStep_frame hw).worker i hij]
      exact h

theorem goto_pc (s : State) (i : Nat) (pc : Pc) : ((s.goto i pc).worker i).pc = pc := by
  show (Function.update s.worker i _ i).pc = pc
  rw [Function.update_self]

/-- A worker leaves its loop only after the shutdown was requested. -/
theorem left_of_workerStep (hs : workerStep s i = some s') (h : (s'.worker i).pc.left = true) :
    (s.worker i).pc.left = true ∨ s.shutdown = true := by
  by_contra hno
  rw [not_or] at hno
  obtain ⟨hin, hrun⟩ := hno
  have hself : ∀ {w : Worker}, s'.worker = Function.update s.worker i w → w.pc.left = true := by
    intro w hw
    rwa [hw, Function.update_self] at h
  cases workerStep_move hs with
  | drain hpc | drained hpc | drainClear hpc | countdown hpc | saveTracelog hpc
  | setComplete hpc =>
      rw [hpc] at hin
      exact hin rfl
  | leave _ hshut => exact hrun hshut
  | spin => exact hin h
  | handOver | complete | completed =>
      rw [goto_pc] at h
      cases h
  | _ => cases hself rfl

/-- Before the shutdown is requested, all workers are in their loops. -/
theorem not_left_step (hs : step s x = some s') (hrun : s'.shutdown = false)
    (h : s.shutdown = false → ∀ i, (s.worker i).pc.left = false) :
    s.shutdown = false ∧ ∀ i, (s'.worker i).pc.left = false := by
  rcases step_cases hs with ⟨-, hf⟩ | ⟨j, job, -, -, -, -, rfl⟩ | ⟨j, -, -, hw⟩
  · have hrun₀ : s.shutdown = false := by
      by_contra hs
      rw [hf.shutdown (Bool.not_eq_false _ ▸ hs)] at hrun
      cases hrun
    refine ⟨hrun₀, fun i => ?_⟩
    rw [hf.worker]
    exact h hrun₀ i
  · refine ⟨hrun, fun i => ?_⟩
    show (Function.update s.worker j _ i).pc.left = false
    by_cases hij : i = j
    · rw [hij, Function.update_self]
      rfl
    · rw [Function.update_of_ne hij]
      exact h hrun i
  · have hrun₀ : s.shutdown = false := (workerStep_frame hw).shutdown ▸ hrun
    refine ⟨hrun₀, fun i => ?_⟩
    by_cases hij : i = j
    · by_contra hl
      rw [hij] at hl
      rcases left_of_workerStep hw (Bool.not_eq_false _ ▸ hl) with hl | hl
      · rw [h hrun₀ j] at hl
        cases hl
      · rw [hrun₀] at hl
        cases hl
    · rw [(workerStep_frame hw).worker i hij]
      exact h hrun₀ i

end Bop.JobSystem
