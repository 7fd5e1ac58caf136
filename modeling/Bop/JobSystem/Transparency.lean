import Bop.JobSystem.Accounting
import Bop.JobSystem.Fresh

set_option autoImplicit false

/-! # Recycling is transparent

`create_job` uses the storages of recycled jobs again. `recycling_transparent` compares a run with
the one of the job system that allocates for each job (`stepFresh`): as long as no reference is used
after its job completed, both execute the same works in the same order, and all jobs that are not
recycled are the same up to the names of their storages.
-/

namespace Bop.JobSystem

/-- A reference that the next step of the call uses is the one to a job that is not completed. -/
def State.CallUsesPending (s : State) : Call → Prop
  | .attach job of _ => s.Pending of job
  | .reread job w => ∀ of, .attached of w ∈ s.log → s.Pending of job
  | _ => True

/-- The same for an action. -/
def State.UsesPending (s : State) : Action → Prop
  | .jobThen _ of job _ _ => s.Pending of job
  | .call t => s.CallUsesPending (s.call t)
  | _ => True

/-- The works to which `w` was attached. -/
def Event.attachee (w : Work) : Event → Option Work
  | .attached of v => if v = w then some of else none
  | _ => none

theorem mem_attachee {log : List Event} {of w : Work} :
    of ∈ log.filterMap (Event.attachee w) ↔ .attached of w ∈ log := by
  rw [List.mem_filterMap]
  constructor
  · rintro ⟨e, he, ha⟩
    cases e <;> simp [Event.attachee] at ha
    obtain ⟨rfl, rfl⟩ := ha
    exact he
  · exact fun he => ⟨_, he, if_pos rfl⟩

instance (s : State) : DecidablePred s.CallUsesPending
  | .attach job of _ => inferInstanceAs (Decidable (s.Pending of job))
  | .reread job w => decidable_of_iff (∀ of ∈ s.log.filterMap (Event.attachee w), s.Pending of job)
      (forall_congr' fun _ => imp_congr_left mem_attachee)
  | .idle | .route _ | .balance _ | .pushGlobal _ | .pushLocal _ => .isTrue trivial

instance (s : State) : DecidablePred s.UsesPending
  | .jobThen _ of job _ _ => inferInstanceAs (Decidable (s.Pending of job))
  | .call t => inferInstanceAs (Decidable (s.CallUsesPending (s.call t)))
  | .schedule _ _ _ _ | .shutdown _ | .finish _ | .work _ => .isTrue trivial

/-- A call with the renamed jobs. -/
def State.CallCopy (name : Work → Addr) (s : State) : Call → Call → Prop
  | .idle, c => c = .idle
  | .route work, c => c = .route (s.naming name work)
  | .balance work, c => c = .balance (s.naming name work)
  | .pushGlobal work, c => c = .pushGlobal (s.naming name work)
  | .pushLocal work, c => c = .pushLocal (s.naming name work)
  | .attach _ of work, c => c = .attach (name of) of (s.naming name work)
  | .reread _ w, c => ∃ of, .attached of w ∈ s.log ∧ c = .reread (name of) w

/-- **The state `f` is a copy of `s`** with other storages: the threads are at the same points in
the code, with the same variables, and the memories mirror each other. -/
structure Copy (name : Work → Addr) (s f : State) : Prop where
  control : f = s.renamed (s.naming name) f.call f.memory
  call : ∀ t, s.CallCopy name (s.call t) (f.call t)
  memory : Mirrors name s f.memory

section Copy

variable {name : Work → Addr} {s s' f f' : State} {m : Memory} {place : Addr → Option Place}
variable {i : Nat} {t : Tid} {c c' : Call} {ρ : Addr → Addr} {call : Tid → Call} {pc : Pc}
variable {x : Action}

theorem CallCopy.mono (h : s.CallCopy name c c')
    (hjob : ∀ a, c.job = some a → s'.naming name a = s.naming name a)
    (hlog : ∀ {of w}, .attached of w ∈ s.log → .attached of w ∈ s'.log) :
    s'.CallCopy name c c' := by
  cases c with
  | idle => exact h
  | reread job w =>
      obtain ⟨of, hof, hc⟩ := h
      exact ⟨of, hlog hof, hc⟩
  | route a | balance a | pushGlobal a | pushLocal a | attach job of a =>
      rw [State.CallCopy, hjob a rfl]
      exact h

/-- The calls stay where they are. -/
theorem Copy.of (h : Copy name s f) (hf : f' = s'.renamed (s.naming name) f.call m)
    (hnaming : s'.naming name = s.naming name) (hcall : s'.call = s.call)
    (hlog : ∀ {of w}, .attached of w ∈ s.log → .attached of w ∈ s'.log)
    (hm : Mirrors name s' m) : Copy name s' f' := by
  subst hf
  refine ⟨?_, fun t => ?_, hm⟩
  · rw [hnaming]
    rfl
  · rw [hcall]
    exact CallCopy.mono (h.call t) (fun a _ => by rw [hnaming]) hlog

theorem renamed_pc (h : (s.worker i).pc = pc) :
    ((s.renamed ρ call m).worker i).pc = pc.rename ρ := congrArg (Pc.rename ρ) h

/-- The worker goes on in the same way, and so do the memories. -/
theorem Copy.work (h : Copy name s f)
    (hs : JobSystem.workerStep (s.renamed (s.naming name) f.call f.memory) i =
      some (s'.renamed (s.naming name) f.call m))
    (hnaming : s'.naming name = s.naming name) (hcall : s'.call = s.call)
    (hlog : ∀ {of w}, .attached of w ∈ s.log → .attached of w ∈ s'.log)
    (hm : Mirrors name s' m) : ∃ f', JobSystem.workerStep f i = some f' ∧ Copy name s' f' :=
  ⟨_, (congrArg (JobSystem.workerStep · i) h.control).trans hs, h.of rfl hnaming hcall hlog hm⟩

theorem naming_congr (h : s'.jobs = s.jobs) : s'.naming name = s.naming name := by
  funext a
  rw [State.naming, State.naming, h]

/-- A worker changes only its own variables and the atomic flags. -/
theorem Copy.quiet (h : Copy name s f) (hm : s'.memory = s.memory) (hcall : s'.call = s.call)
    (hnext : s'.nextWork = s.nextWork)
    (hs : ∀ call m, workerStep (s.renamed (s.naming name) call m) i =
      some (s'.renamed (s.naming name) call m)) :
    ∃ f', workerStep f i = some f' ∧ Copy name s' f' := by
  have hjobs : s'.jobs = s.jobs := congrArg Memory.jobs hm
  have hlog : s'.log = s.log := congrArg Memory.log hm
  refine h.work (hs _ _) (naming_congr hjobs) hcall (fun he => hlog ▸ he) ?_
  exact h.memory.congr hjobs (congrArg Memory.live hm) hlog (congrArg Memory.store hm) hnext

/-- A worker tries to take a job out of a queue. -/
theorem Copy.pop {q : QueueId} {o : Option Addr} {st : Store QueueId Addr} (h : Copy name s f)
    (hq : q.isBin = false) (hpop : s.store.pop q = (o, st))
    (hm : s'.memory = { s.memory with store := st }) (hcall : s'.call = s.call)
    (hnext : s'.nextWork = s.nextWork)
    (hs : ∀ call (m : Memory) st', m.store.pop q = (o.map (s.naming name), st') →
      workerStep (s.renamed (s.naming name) call m) i =
        some (s'.renamed (s.naming name) call { m with store := st' })) :
    ∃ f', workerStep f i = some f' ∧ Copy name s' f' := by
  have hjobs : s'.jobs = s.jobs := congrArg Memory.jobs hm
  have hlog : s'.log = s.log := congrArg Memory.log hm
  obtain ⟨hfst, hmem⟩ := h.memory.pop hq
  rw [hpop] at hfst hmem
  refine h.work (hs _ _ _ (Prod.ext hfst rfl)) (naming_congr hjobs) hcall
    (fun he => hlog ▸ he) ?_
  exact hmem.congr hjobs (congrArg Memory.live hm) hlog (congrArg Memory.store hm) hnext

/-- A worker takes part in nothing but an event of its current job. -/
theorem Copy.event {e : Event} (h : Copy name s f) (hm : s'.memory = (s.record e).memory)
    (hcall : s'.call = s.call) (hnext : s'.nextWork = s.nextWork)
    (href : ∀ w a, e ≠ .scheduled w a ∧ e ≠ .returned w (some a))
    (hs : workerStep (s.renamed (s.naming name) f.call f.memory) i =
      some (s'.renamed (s.naming name) f.call { f.memory with log := e :: f.log })) :
    ∃ f', workerStep f i = some f' ∧ Copy name s' f' := by
  have hjobs : s'.jobs = s.jobs := congrArg Memory.jobs hm
  have hlog : s'.log = e :: s.log := congrArg Memory.log hm
  have hmem := h.memory.record (e := e) rfl fun w a he => he.elim
    (fun he => absurd he (href w a).1) (fun he => absurd he (href w a).2)
  refine h.work hs (naming_congr hjobs) hcall
    (fun he => hlog ▸ List.mem_cons_of_mem _ he) ?_
  exact hmem.congr hjobs (congrArg Memory.live hm) hlog (congrArg Memory.store hm) hnext

/-- The current job of a worker is in both memories. -/
theorem Copy.current {a : Addr} {m : Stage} (h : Copy name s f) (hs : Settled s place)
    (hcur : (s.worker i).pc.current = some (a, m)) : s.Alive a ∧
      (s.renamed (s.naming name) f.call f.memory).jobs (s.naming name a) =
        (s.jobs a).rename (s.naming name) := by
  have ha : s.Alive a := hs.alive (hs.views.current hcur) (Stage.rank_le _)
  exact ⟨ha, (h.memory.jobs a ha).2⟩

/-- A worker is inside `job_completed`. -/
theorem Copy.complete {c : Completion} {o : Option Addr} (hname : Function.Injective name)
    (h : Copy name s f) (hs : Settled s place) (hpc : (s.worker i).pc = .complete c o)
    (hstep : workerStep s i = some s') : ∃ f', workerStep f i = some f' ∧ Copy name s' f' := by
  have hcal := hs.views.callers i c o hpc
  cases c with
  | fetchSub a callers =>
      obtain rfl : callers = [] := hcal
      have ha : place a = some (.run i .countedOff (s.worker i).via) :=
        hs.views.current (by rw [hpc]; rfl)
      obtain ⟨halive, hjob⟩ := h.current hs (by rw [hpc]; rfl)
      have hone : (s.jobs a).numChildren = 1 :=
        hs.inOrder.valid.counter_one halive.1
          (fun hoff => lt_irrefl _ ((hs.inOrder.valid.mem_trail_iff ha).mp hoff))
      simp only [JobSystem.workerStep, hpc, completionStep, hone] at hstep
      obtain rfl := Option.some.inj hstep
      have hmem := (h.memory.setJob (j := { s.jobs a with numChildren := pred32 1 }) hs hname
        halive rfl).record (e := .fetchSub (s.jobs a).work 1 true) rfl (by simp)
      refine h.work ?_ (naming_setJob rfl) rfl (List.mem_cons_of_mem _)
        (hmem.congr rfl rfl rfl rfl rfl)
      simp only [JobSystem.workerStep, renamed_pc hpc, Pc.rename, Completion.rename, List.map_nil,
        completionStep]
      rw [hjob]
      simp only [Job.rename, hone]
      exact congrArg some (goto_of_renamed (.complete (.ascend a []) o) rfl)
  | ascend a callers =>
      obtain rfl : callers = [] := hcal
      obtain ⟨-, hjob⟩ := h.current hs (by rw [hpc]; rfl)
      have hnone : (s.jobs a).parent = none := hs.rootless.parent a
      simp only [JobSystem.workerStep, hpc, completionStep, hnone] at hstep
      obtain rfl := Option.some.inj hstep
      refine h.event (e := .completed (s.jobs a).work) rfl rfl rfl (by simp) ?_
      simp only [JobSystem.workerStep, renamed_pc hpc, Pc.rename, Completion.rename, List.map_nil,
        completionStep]
      rw [hjob]
      simp only [Job.rename, hnone, Option.map_none]
      exact congrArg some (goto_of_renamed (.complete (.recycle a []) o) rfl)
  | recycle a callers =>
      obtain rfl : callers = [] := hcal
      have ha : place a = some (.run i .recycled (s.worker i).via) :=
        hs.views.current (by rw [hpc]; rfl)
      obtain ⟨halive, hjob⟩ := h.current hs (by rw [hpc]; rfl)
      have hout : ∀ q, ¬ s.store.Linked q a := by
        intro q hq
        rw [(hs.views.queue q a).mp hq] at ha
        cases ha
      -- the two bins may be of different sizes
      obtain ⟨q, hq, hrec⟩ := recycle_eq s (.worker i) a
      obtain ⟨q', hq', hrec'⟩ := recycle_eq (s.renamed (s.naming name) f.call f.memory)
        (.worker i) (s.naming name a)
      have hbin : ∀ {r : QueueId}, r = .recyclingBin (.worker i) ∨ r = .garbageBin (.worker i) →
          r.isBin = true := by
        rintro r (rfl | rfl) <;> rfl
      simp only [JobSystem.workerStep, hpc, completionStep, hrec, unwind] at hstep
      obtain rfl := Option.some.inj hstep
      have hmem := h.memory.recycle hs hname (hbin hq) (hbin hq') halive hout
      refine h.work ?_ rfl rfl (List.mem_cons_of_mem _) (hmem.congr rfl rfl rfl rfl rfl)
      simp only [JobSystem.workerStep, renamed_pc hpc, Pc.rename, Completion.rename, List.map_nil,
        completionStep, hrec', unwind]
      rw [hjob]
      exact congrArg some (goto_of_renamed (.execute o) rfl)

theorem Copy.workerStep (hname : Function.Injective name) (h : Copy name s f)
    (hs : Settled s place) (hstep : JobSystem.workerStep s i = some s') :
    ∃ f', JobSystem.workerStep f i = some f' ∧ Copy name s' f' := by
  cases workerStep_move hstep with
  | start hpc | arrive hpc | stealInit hpc | stealNext hpc | noJob hpc | storeTrace hpc
  | stealCount hpc | hasJob hpc =>
      refine h.quiet rfl rfl rfl fun call m => ?_
      simp only [JobSystem.workerStep, renamed_pc hpc, Pc.rename]
      simp only [State.renamed, State.goto, rename_update]
      rfl
  | spin hpc hcond =>
      refine h.quiet rfl rfl rfl fun call m => ?_
      simp only [JobSystem.workerStep, renamed_pc hpc, Pc.rename]
      exact congrArg some (if_pos hcond)
  | released hpc hcond =>
      refine h.quiet rfl rfl rfl fun call m => ?_
      simp only [JobSystem.workerStep, renamed_pc hpc, Pc.rename]
      rw [show (s.renamed (s.naming name) call m).remainingWorkers = s.remainingWorkers from rfl,
        if_neg hcond]
      exact congrArg some (renamed_goto .stealInit)
  | stay hpc hcond =>
      refine h.quiet rfl rfl rfl fun call m => ?_
      simp only [JobSystem.workerStep, renamed_pc hpc, Pc.rename]
      rw [show (s.renamed (s.naming name) call m).shutdown = false from hcond]
      exact congrArg some (renamed_goto .popLocal)
  | leave hpc hcond => exact absurd (hs.shutdown.symm.trans hcond) (by decide)
  | stealOn hpc hcond =>
      refine h.quiet rfl rfl rfl fun call m => ?_
      simp only [JobSystem.workerStep, renamed_pc hpc, Pc.rename, Option.map_none, if_pos hcond]
      exact congrArg some (renamed_goto (.stealNext _))
  | stealEnd hpc hcond =>
      refine h.quiet rfl rfl rfl fun call m => ?_
      simp only [JobSystem.workerStep, renamed_pc hpc, Pc.rename, Option.map_none, if_neg hcond]
      exact congrArg some (renamed_goto (.execute none))
  | idle hpc hcond =>
      refine h.quiet rfl rfl rfl fun call m => ?_
      simp only [JobSystem.workerStep, renamed_pc hpc, Pc.rename]
      have hcond' : ¬ ((s.renamed (s.naming name) call m).worker i).noWorkCounter + 1 >
        kLoopsUntilGC := hcond
      rw [if_neg hcond']
      simp only [State.renamed, rename_update]
      rfl
  | drain hpc | drained hpc | drainClear hpc | countdown hpc | saveTracelog hpc
  | setComplete hpc =>
      have hl := hs.stays i
      rw [hpc] at hl
      cases hl
  | noLocal hpc hpop =>
      refine h.pop rfl hpop rfl rfl rfl fun call m st' hpop' => ?_
      simp only [JobSystem.workerStep, renamed_pc hpc, Pc.rename, JobQueue.pop]
      rw [show (s.renamed (s.naming name) call m).store.pop _ = _ from hpop']
      exact congrArg (fun x : State => some { x with store := st' }) (renamed_goto .popGlobal)
  | @popLocal a st hpc hpop =>
      refine h.pop rfl hpop rfl rfl rfl fun call m st' hpop' => ?_
      simp only [JobSystem.workerStep, renamed_pc hpc, Pc.rename, JobQueue.pop]
      rw [show (s.renamed (s.naming name) call m).store.pop _ = _ from hpop']
      exact congrArg (fun x : State => some { x with store := st' })
        (renamed_gotoVia (.stealCount (some a)) none)
  | @popGlobal o st hpc hpop =>
      refine h.pop rfl hpop rfl rfl rfl fun call m st' hpop' => ?_
      simp only [JobSystem.workerStep, renamed_pc hpc, Pc.rename, JobQueue.pop]
      rw [show (s.renamed (s.naming name) call m).store.pop _ = _ from hpop']
      exact congrArg (fun x : State => some { x with store := st' })
        (renamed_gotoVia (.stealCount o) none)
  | @stealPop n o st hpc hpop =>
      refine h.pop rfl hpop rfl rfl rfl fun call m st' hpop' => ?_
      simp only [JobSystem.workerStep, renamed_pc hpc, Pc.rename, JobQueue.pop]
      rw [show (s.renamed (s.naming name) call m).store.pop
        (.globalQueue ((s.renamed (s.naming name) call m).worker i).stealFrom) = _ from hpop']
      exact congrArg (fun x : State => some { x with store := st' })
        (renamed_gotoVia (.stealTest o n) none)
  | collect hpc hcond =>
      refine h.work (m := { f.memory with
        store := (f.memory.store.clear (.garbageBin (.worker i))).2 }) ?_ rfl rfl id
        ((h.memory.clear rfl).congr rfl rfl rfl rfl rfl)
      simp only [JobSystem.workerStep, renamed_pc hpc, Pc.rename]
      have hcond' : ((s.renamed (s.naming name) f.call f.memory).worker i).noWorkCounter + 1 >
        kLoopsUntilGC := hcond
      rw [if_pos hcond']
      simp only [State.renamed, rename_update]
      rfl
  | @execute a hpc =>
      obtain ⟨-, hjob⟩ := h.current hs (by rw [hpc]; rfl)
      refine h.event rfl rfl rfl (by simp) ?_
      simp only [JobSystem.workerStep, renamed_pc hpc, Pc.rename, Option.map_some]
      rw [hjob]
      exact congrArg (fun x : State => some (x.record _)) (renamed_goto (.running a))
  | @readContinuation a hpc =>
      obtain ⟨-, hjob⟩ := h.current hs (by rw [hpc]; rfl)
      refine h.event rfl rfl rfl (by simp) ?_
      simp only [JobSystem.workerStep, renamed_pc hpc, Pc.rename]
      rw [hjob]
      exact congrArg (fun x : State => some (x.record _))
        (renamed_gotoVia (.handOver a (s.jobs a).continuation) (some (s.jobs a).work))
  | @handOver a o hpc =>
      obtain ⟨-, hjob⟩ := h.current hs (by rw [hpc]; rfl)
      -- no job has a parent
      have hnone : (s.jobs a).parent = none := hs.rootless.parent a
      have hstay : handOver s a o = s := by
        cases o <;> simp [handOver, hnone]
      rw [hstay]
      refine h.work ?_ rfl rfl id (h.memory.congr rfl rfl rfl rfl rfl)
      simp only [JobSystem.workerStep, renamed_pc hpc, Pc.rename]
      have hstay' : handOver (s.renamed (s.naming name) f.call f.memory) (s.naming name a)
          (o.map (s.naming name)) = s.renamed (s.naming name) f.call f.memory := by
        cases o <;> simp [handOver, hjob, Job.rename, hnone]
      rw [hstay']
      exact congrArg some (renamed_goto (.complete (.fetchSub a []) o))
  | complete hpc | completed hpc => exact h.complete hname hs hpc hstep

/-! ## The calls -/

/-- A thread goes on with its call in the same way, and so do the memories. -/
theorem Copy.onCall (h : Copy name s f)
    (hs : callStep (s.renamed (s.naming name) f.call f.memory) t =
      some (s'.renamed (s.naming name) (Function.update f.call t c') m))
    (hcall : s'.call = Function.update s.call t c) (hc : s'.CallCopy name c c')
    (hnaming : s'.naming name = s.naming name)
    (hlog : ∀ {of w}, .attached of w ∈ s.log → .attached of w ∈ s'.log)
    (hm : Mirrors name s' m) : ∃ f', callStep f t = some f' ∧ Copy name s' f' := by
  refine ⟨_, (congrArg (callStep · t) h.control).trans hs, ?_, fun u => ?_, hm⟩
  · rw [hnaming]
    rfl
  · show s'.CallCopy name (s'.call u) (Function.update f.call t c' u)
    rw [hcall]
    by_cases hu : u = t
    · subst hu
      rw [Function.update_self, Function.update_self]
      exact hc
    · rw [Function.update_of_ne hu, Function.update_of_ne hu]
      exact CallCopy.mono (h.call u) (fun a _ => by rw [hnaming]) hlog

/-- The thread goes on in its call, with the job it has. -/
theorem Copy.setCall (h : Copy name s f) (hm : s'.memory = s.memory)
    (hcall : s'.call = Function.update s.call t c) (hnext : s'.nextWork = s.nextWork)
    (hc : s.CallCopy name c c')
    (hs : callStep (s.renamed (s.naming name) f.call f.memory) t =
      some (s'.renamed (s.naming name) (Function.update f.call t c') f.memory)) :
    ∃ f', callStep f t = some f' ∧ Copy name s' f' := by
  have hjobs : s'.jobs = s.jobs := congrArg Memory.jobs hm
  have hlog : s'.log = s.log := congrArg Memory.log hm
  have hnaming : s'.naming name = s.naming name := naming_congr hjobs
  refine h.onCall hs hcall (CallCopy.mono hc (fun a _ => by rw [hnaming]) (fun he => hlog ▸ he))
    hnaming (fun he => hlog ▸ he) ?_
  exact h.memory.congr hjobs (congrArg Memory.live hm) hlog (congrArg Memory.store hm) hnext

/-- A job that is not completed is not recycled. -/
theorem Settled.alive_of_pending {of : Work} {a : Addr} (hs : Settled s place)
    (hp : s.Pending of a) : s.Alive a := by
  obtain ⟨hlive, rfl, hopen⟩ := hp
  refine ⟨hlive, fun hr => hopen ?_⟩
  exact completed_iff.mp (hs.inOrder.valid.mem_trail_of_le (recycled_iff.mpr hr) (by decide))

/-- A job in a call is in both memories. -/
theorem Copy.held {a : Addr} (h : Copy name s f) (hs : Settled s place) (hc : s.call t = c)
    (ha : c.job = some a) : s.Alive a ∧ (∀ q, ¬ s.store.Linked q a) ∧
      (s.renamed (s.naming name) f.call f.memory).jobs (s.naming name a) =
        (s.jobs a).rename (s.naming name) := by
  have hp : place a = some (.call t c) := (hs.views.call t c a).mp ⟨hc, ha⟩
  have halive : s.Alive a := hs.alive hp (Nat.zero_le _)
  refine ⟨halive, fun q hq => ?_, (h.memory.jobs a halive).2⟩
  rw [(hs.views.queue q a).mp hq] at hp
  cases hp

/-- A job is pushed, and `schedule` returns the reference. -/
theorem Mirrors.scheduled {a : Addr} {q : QueueId} (h : Mirrors name s m) (hs : Settled s place)
    (hname : Function.Injective name) (hq : q.isBin = false) (ha : s.Alive a)
    (hout : ∀ q, ¬ s.store.Linked q a) :
    Mirrors name { s.record (.scheduled (s.jobs a).work a) with store := s.store.push q a }
      { m with
        store := m.store.push q (s.naming name a)
        log := .scheduled (s.jobs a).work (s.naming name a) :: m.log } := by
  refine ((h.push hs hname hq ha hout).record (e := .scheduled (s.jobs a).work a)
    (show Event.plain _ = Event.plain (.scheduled (s.jobs a).work (s.naming name a)) from rfl)
    fun w x he hw => Or.inl ?_).congr rfl rfl rfl rfl rfl
  rcases he with he | he
  · obtain ⟨rfl, rfl⟩ := Event.scheduled.inj he
    rfl
  · cases he

/-- The call of the thread in the copy. -/
theorem Copy.call_eq (h : Copy name s f) (hc : s.call t = c) :
    s.CallCopy name c ((s.renamed (s.naming name) f.call f.memory).call t) := hc ▸ h.call t

/-- The job is pushed to a queue. -/
theorem Copy.push {a : Addr} {q : QueueId} (hname : Function.Injective name) (h : Copy name s f)
    (hs : Settled s place) (hc : s.call t = c) (ha : c.job = some a) (hq : q.isBin = false)
    (hf : JobSystem.callStep (s.renamed (s.naming name) f.call f.memory) t =
      some { ((s.renamed (s.naming name) f.call f.memory).setCall t .idle).record
          (.scheduled ((s.renamed (s.naming name) f.call f.memory).jobs (s.naming name a)).work
            (s.naming name a)) with
        store := f.store.push q (s.naming name a) }) :
    ∃ f', JobSystem.callStep f t = some f' ∧ Copy name
      { (s.setCall t .idle).record (.scheduled (s.jobs a).work a) with
        store := s.store.push q a } f' := by
  obtain ⟨halive, hout, hjob⟩ := h.held hs hc ha
  have hmem := h.memory.scheduled hs hname hq halive hout
  rw [hjob] at hf
  refine h.onCall (c := .idle) ?_ rfl rfl rfl (List.mem_cons_of_mem _)
    (hmem.congr rfl rfl rfl rfl rfl)
  exact hf

/-- The write of `m_Continuation`. -/
theorem Copy.attach {a job : Addr} {of : Work} (hname : Function.Injective name)
    (h : Copy name s f) (hs : Settled s place) (hc : s.call t = .attach job of a)
    (hp : s.Pending of job) :
    ∃ f', JobSystem.callStep f t = some f' ∧ Copy name
      (((s.setJob job { s.jobs job with continuation := some a }).setCall t
        (.reread job (s.jobs a).work)).record (.attached of (s.jobs a).work)) f' := by
  obtain ⟨-, -, hjob⟩ := h.held hs hc rfl
  have halive := hs.alive_of_pending hp
  obtain ⟨-, rfl, -⟩ := hp
  have hold : (s.renamed (s.naming name) f.call f.memory).jobs (name (s.jobs job).work) =
    (s.jobs job).rename (s.naming name) := (h.memory.jobs job halive).2
  have hf := (CallMove.attach (h.call_eq hc)).step
  rw [hjob, hold] at hf
  have hmem := (h.memory.setJob (j := { s.jobs job with continuation := some a }) hs hname
    halive rfl).record (e := .attached (s.jobs job).work (s.jobs a).work) rfl (by simp)
  refine h.onCall (c := .reread job (s.jobs a).work)
    ?_ rfl ⟨_, List.mem_cons_self, rfl⟩ (naming_setJob rfl) (List.mem_cons_of_mem _)
    (hmem.congr rfl rfl rfl rfl rfl)
  exact hf

/-- `then` reads `m_Continuation` again and returns the reference. -/
theorem Copy.reread {job : Addr} {w : Work} (h : Copy name s f) (hs : Settled s place)
    (hc : s.call t = .reread job w) (hp : ∀ of, .attached of w ∈ s.log → s.Pending of job) :
    ∃ f', JobSystem.callStep f t = some f' ∧ Copy name
      ((s.setCall t .idle).record (.returned w (s.jobs job).continuation)) f' := by
  obtain ⟨of, hatt, hcopy⟩ := h.call_eq hc
  have halive := hs.alive_of_pending (hp of hatt)
  obtain ⟨-, rfl, -⟩ := hp of hatt
  have hold : (s.renamed (s.naming name) f.call f.memory).jobs (name (s.jobs job).work) =
    (s.jobs job).rename (s.naming name) := (h.memory.jobs job halive).2
  have hf := (CallMove.reread hcopy).step
  rw [hold] at hf
  have hplain : Event.plain (.returned w (s.jobs job).continuation) =
      Event.plain (.returned w ((s.jobs job).continuation.map (s.naming name))) := by
    simp [Event.plain, Function.comp_def]
  have hmem := h.memory.record hplain (by
    rintro v x (he | he) rfl
    · cases he
    · obtain ⟨rfl, hx⟩ := Event.returned.inj he
      exact Or.inr (by rw [hx]; rfl))
  refine h.onCall (c := .idle) ?_ rfl rfl rfl (List.mem_cons_of_mem _)
    (hmem.congr rfl rfl rfl rfl rfl)
  exact hf

/-- **A step of a call.** -/
theorem Copy.callStep (hname : Function.Injective name) (h : Copy name s f)
    (hs : Settled s place) (hu : s.UsesPending (.call t))
    (hstep : JobSystem.callStep s t = some s') :
    ∃ f', JobSystem.callStep f t = some f' ∧ Copy name s' f' := by
  cases callStep_move hstep with
  | @shared a hc hti =>
      -- both jobs have the same thread index
      obtain ⟨-, -, hjob⟩ := h.held hs hc rfl
      exact h.setCall (c := .balance a) rfl rfl rfl rfl
        (CallMove.shared (h.call_eq hc) (by rw [hjob]; exact hti)).step
  | @own a hc hti =>
      obtain ⟨-, -, hjob⟩ := h.held hs hc rfl
      exact h.setCall (c := .pushLocal a) rfl rfl rfl rfl
        (CallMove.own (h.call_eq hc) (by rw [hjob]; exact hti)).step
  | @balance a hc =>
      exact h.setCall (c := .pushGlobal a) rfl rfl rfl rfl (CallMove.balance (h.call_eq hc)).step
  | pushGlobal hc => exact h.push hname hs hc rfl rfl (CallMove.pushGlobal (h.call_eq hc)).step
  | pushLocal hc => exact h.push hname hs hc rfl rfl (CallMove.pushLocal (h.call_eq hc)).step
  | attach hc =>
      exact h.attach hname hs hc (by simpa [State.UsesPending, State.CallUsesPending, hc] using hu)
  | reread hc =>
      exact h.reread hs hc (by simpa [State.UsesPending, State.CallUsesPending, hc] using hu)

/-- The work that a worker runs ends. -/
theorem Copy.finish (h : Copy name s f) (hs : Settled s place)
    (hstep : step s (.finish i) = some s') :
    ∃ f', step f (.finish i) = some f' ∧ Copy name s' f' := by
  obtain ⟨job, hpc, hidle, hi, rfl⟩ := step_finish hstep
  obtain ⟨-, hjob⟩ := h.current hs (by rw [hpc]; rfl)
  have hcopy := h.call (.worker i)
  rw [hidle] at hcopy
  have hidle' : f.call (.worker i) = .idle := hcopy
  have hmem := h.memory.record (e := .finished (s.jobs job).work) rfl (by simp)
  refine ⟨_, (congrArg (step · (.finish i)) h.control).trans ?_,
    h.of rfl rfl rfl (List.mem_cons_of_mem _) (hmem.congr rfl rfl rfl rfl rfl)⟩
  simp only [step, renamed_pc hpc, Pc.rename]
  rw [if_pos ⟨hidle', hi⟩, hjob]
  exact congrArg (fun x : State => some (x.record _)) (renamed_goto (.storeTrace job))

/-! ## New jobs -/

/-- The calls of the other threads are about other jobs. -/
theorem Copy.call_constructs {a : Addr} {threadIndex : Option Nat} (h : Copy name s f)
    (hs : Settled s place) (hnew : Constructs s a threadIndex s') (u : Tid) :
    s'.CallCopy name (s.call u) (f.call u) := by
  refine CallCopy.mono (h.call u) (fun x hx => ?_) hnew.mem_log
  have hp : place x = some (.call u (s.call u)) := (hs.views.call u _ x).mp ⟨rfl, hx⟩
  exact hnew.naming (hs.alive hp (Nat.zero_le _))

/-- The workers have other jobs. -/
theorem Settled.rename_constructs {a : Addr} {threadIndex : Option Nat} (hs : Settled s place)
    (hnew : Constructs s a threadIndex s') :
    (fun i => (s.worker i).rename (s'.naming name)) =
      fun i => (s.worker i).rename (s.naming name) := by
  funext i
  have hpc : (s.worker i).pc.rename (s'.naming name) = (s.worker i).pc.rename (s.naming name) := by
    refine Pc.rename_congr (fun x k hx => ?_) (fun x hx => ?_) (hs.views.callers i)
    · exact hnew.naming (hs.alive (hs.views.current hx) (Stage.rank_le _))
    · have hp : place x = some (.next i (s.worker i).via) := (hs.views.next i x _).mp ⟨hx, rfl⟩
      exact hnew.naming (hs.alive hp (Nat.zero_le _))
  rw [Worker.rename, hpc]
  rfl

/-- A thread begins a call with a new job. -/
theorem Copy.construct {a : Addr} {threadIndex : Option Nat} (hname : Function.Injective name)
    (h : Copy name s f) (hs : Settled s place) (hnew : Constructs s a threadIndex s')
    (hc : s'.CallCopy name c c') :
    Copy name (s'.setCall t c)
      ((constructFresh f none threadIndex (name s.nextWork)).1.setCall t c') := by
  have hmem := h.memory.construct hs hname hnew
  have hnext : f.nextWork = s.nextWork := by
    rw [h.control]
    rfl
  have hf : (constructFresh f none threadIndex (name s.nextWork)).1 =
      s'.renamed (s'.naming name) f.call ⟨Function.update f.jobs (name s.nextWork)
          { threadIndex := threadIndex, work := s.nextWork },
        f.store.clearNext (name s.nextWork), name s.nextWork :: f.live,
        .constructed s.nextWork (name s.nextWork) none threadIndex ::
          .allocated (name s.nextWork) :: f.log⟩ := by
    have hctl := congrArg (fun x : State => { x with
      jobs := Function.update f.jobs (name s.nextWork)
        { threadIndex := threadIndex, work := s.nextWork }
      store := f.store.clearNext (name s.nextWork)
      live := name s.nextWork :: f.live
      nextWork := s.nextWork + 1
      log := .constructed s.nextWork (name s.nextWork) none threadIndex ::
        .allocated (name s.nextWork) :: f.log }) h.control
    have hrest := congrArg (fun x : State => x.renamed (s'.naming name) f.call
      ⟨Function.update f.jobs (name s.nextWork)
          { threadIndex := threadIndex, work := s.nextWork },
        f.store.clearNext (name s.nextWork), name s.nextWork :: f.live,
        .constructed s.nextWork (name s.nextWork) none threadIndex ::
          .allocated (name s.nextWork) :: f.log⟩) hnew.rest
    refine Eq.trans ?_ (hctl.trans (Eq.trans ?_ hrest.symm))
    · simp [constructFresh, createJobFresh, hnext]
    · simp only [State.renamed, hs.rename_constructs hnew]
  refine ⟨?_, fun u => ?_, ?_⟩
  · rw [hf]
    rfl
  · rw [hf]
    have hcall : s'.call = s.call := by rw [hnew.rest]
    show (s'.setCall t c).CallCopy name (Function.update s'.call t c u)
      (Function.update f.call t c' u)
    refine CallCopy.mono (s := s') ?_ (fun _ _ => rfl) id
    by_cases hu : u = t
    · subst hu
      rw [Function.update_self, Function.update_self]
      exact hc
    · rw [Function.update_of_ne hu, Function.update_of_ne hu, hcall]
      exact h.call_constructs hs hnew u
  · rw [hf]
    exact hmem.congr rfl rfl rfl rfl rfl

theorem Copy.userCode (h : Copy name s f) (hu : UserCode s t) : UserCode f t := by
  have hidle : f.call t = .idle := by
    have hcopy := h.call t
    rw [hu.idle] at hcopy
    exact hcopy
  cases t with
  | client => exact hidle
  | worker i =>
      obtain ⟨-, hi, job, hpc⟩ := hu
      refine ⟨hidle, ?_, s.naming name job, ?_⟩
      · rw [h.control]
        exact hi
      · rw [h.control]
        exact renamed_pc hpc

/-- The name of the next job is not used. -/
theorem Copy.fresh (h : Copy name s f) (hname : Function.Injective name) :
    name s.nextWork ∉ f.live := by
  intro hm
  obtain ⟨w, hw, heq⟩ := h.memory.live _ hm
  exact absurd (hname heq) (Nat.ne_of_gt hw)

/-- **One step.** -/
theorem Copy.step (hname : Function.Injective name) (h : Copy name s f) (hs : Settled s place)
    (hx : x.Parentless ∧ x.NoShutdown) (hu : s.UsesPending x)
    (hstep : JobSystem.step s x = some s') :
    ∃ y f', x.plain = y.plain ∧ stepFresh f y = some f' ∧ Copy name s' f' := by
  cases x with
  | schedule t parent threadIndex fresh =>
      obtain rfl : parent = none := hx.1
      obtain ⟨hcode, hfresh, -, rfl⟩ := step_schedule hstep
      have hnew : Constructs s _ threadIndex _ := hs.constructs (t := t) hfresh
      refine ⟨.schedule t none threadIndex (name s.nextWork), _, rfl, if_pos ⟨h.userCode hcode,
        h.fresh hname, by simp⟩, h.construct hname hs hnew ?_⟩
      exact congrArg Call.route hnew.naming_self.symm
  | jobThen t of job threadIndex fresh =>
      obtain ⟨hcode, hfresh, href, rfl⟩ := step_jobThen hstep
      have hp : s.Pending of job := hu
      have hnew : Constructs s _ threadIndex _ := hs.constructs (t := t) hfresh
      refine ⟨.jobThen t of (name of) threadIndex (name s.nextWork), _, rfl,
        if_pos ⟨h.userCode hcode, h.fresh hname, h.memory.references of job href hp.2.1⟩,
        h.construct hname hs hnew ?_⟩
      exact congrArg (Call.attach (name of) of) hnew.naming_self.symm
  | call t =>
      obtain ⟨f', hf, hc⟩ := h.callStep hname hs hu hstep
      exact ⟨.call t, f', rfl, hf, hc⟩
  | shutdown => exact hx.2.elim
  | finish i =>
      obtain ⟨f', hf, hc⟩ := h.finish hs hstep
      exact ⟨.finish i, f', rfl, hf, hc⟩
  | work i =>
      obtain ⟨hi, hwork⟩ := step_work hstep
      obtain ⟨f', hf, hc⟩ := h.workerStep hname hs hwork
      have hi' : i < f.size := by
        rw [h.control]
        exact hi
      exact ⟨.work i, f', rfl, (if_pos hi').trans hf, hc⟩

theorem copy_init (n : Nat) : Copy name (init n) (init n) where
  control := rfl
  call _ := rfl
  memory := {
    jobs := fun a ha => by cases ha.1
    store := ⟨fun _ => [], fun _ => [],
      ⟨fun _ => IntrusiveList.represents_nil, fun _ => rfl, fun h => absurd h List.not_mem_nil⟩,
      ⟨fun _ => IntrusiveList.represents_nil, fun _ => rfl, fun h => absurd h List.not_mem_nil⟩,
      fun _ => ⟨fun _ => rfl, fun _ x hx => absurd hx List.not_mem_nil⟩⟩
    live := fun x hx => by cases hx
    references := fun w a ha => by rcases ha with ha | ha <;> cases ha
    log := rfl }

end Copy

/-! ## Runs -/

section Claims

variable {s : State} {n : Nat} {tr : List (State × Action)} {name : Work → Addr}

/-- **Recycling is transparent.** No job has a parent, `shutdown` is not called, and no reference is
used after its job completed. Then the job system that allocates for each job takes the same steps,
with the job of the work `w` in the storage `name w`. After each of them both have executed the same
works in the same order, and each job that is not recycled is the same in both, up to the names. -/
theorem recycling_transparent (h : Transition.Run step (init n) tr s)
    (hp : ∀ p ∈ tr, p.2.Parentless ∧ p.2.NoShutdown) (hu : ∀ p ∈ tr, p.1.UsesPending p.2)
    (hname : Function.Injective name) :
    ∃ tr' f, Transition.Run stepFresh (init n) tr' f ∧ Copy name s f ∧
      List.Forall₂ (fun p q => Copy name p.1 q.1 ∧ p.2.plain = q.2.plain) tr tr' := by
  have hsim : ∀ {s f : State} {x s'}, ((∃ place, Settled s place) ∧ Copy name s f) →
      ((x.Parentless ∧ x.NoShutdown) ∧ s.UsesPending x) → step s x = some s' →
      ∃ y f', x.plain = y.plain ∧ stepFresh f y = some f' ∧
        ((∃ place, Settled s' place) ∧ Copy name s' f') := by
    rintro s f x s' ⟨⟨place, hs⟩, hc⟩ ⟨hx, hux⟩ hstep
    obtain ⟨y, f', hplain, hf, hc'⟩ := hc.step hname hs hx hux hstep
    exact ⟨y, f', hplain, hf, hs.step hx hstep, hc'⟩
  obtain ⟨tr', f, hrun, ⟨-, hcopy⟩, hall⟩ := h.simulated
    (R := fun s f => (∃ place, Settled s place) ∧ Copy name s f)
    (A := fun (x y : Action) => x.plain = y.plain) ⟨⟨_, settled_init n⟩, copy_init n⟩ hsim
    fun p hm => ⟨hp p hm, hu p hm⟩
  exact ⟨tr', f, hrun, hcopy, hall.imp fun _ _ hpq => ⟨hpq.1.2, hpq.2⟩⟩

/-- A worker recycles the job of the work `1`, and the work `2` attaches a job to its own, which
gets that storage. -/
theorem recycling_transparent_reused : ∃ tr s, Transition.Run step (init 1) tr s ∧
    (.constructed 1 7 none none ∈ s.log ∧ .constructed 3 7 none none ∈ s.log ∧
      .started 3 0 (some 2) ∈ s.log) ∧
    ∃ tr' f, Transition.Run stepFresh (init 1) tr' f ∧ Copy (· + 100) s f ∧
      List.Forall₂ (fun p q => Copy (· + 100) p.1 q.1 ∧ p.2.plain = q.2.plain) tr tr' := by
  have hexec : ((Transition.exec step
      (fun s x => (x.Parentless ∧ x.NoShutdown) ∧ s.UsesPending x) (init 1)
      ([Action.schedule (.client 0) none none 7, .call (.client 0), .call (.client 0),
        .call (.client 0)] ++ List.replicate 10 (.work 0) ++ [Action.finish 0] ++
        List.replicate 6 (.work 0) ++
        [Action.schedule (.client 0) none none 8, .call (.client 0), .call (.client 0),
          .call (.client 0)] ++ List.replicate 8 (.work 0) ++
        [Action.jobThen (.worker 0) 2 8 none 9, .call (.worker 0), .call (.worker 0),
          .finish 0] ++ List.replicate 7 (.work 0))).any fun s =>
      decide (.constructed 1 7 none none ∈ s.log ∧ .constructed 3 7 none none ∈ s.log ∧
        .started 3 0 (some 2) ∈ s.log)) = true := by decide
  obtain ⟨tr, s, hrun, -, hx, hs⟩ := Transition.exists_run_of_exec hexec
  exact ⟨tr, s, hrun, of_decide_eq_true hs, recycling_transparent hrun (fun p hp => (hx p hp).1)
    (fun p hp => (hx p hp).2) fun _ _ h => Nat.add_right_cancel h⟩

end Claims

end Bop.JobSystem
