import Bop.JobSystem.Refinement
import Bop.Queue.Guarded

set_option autoImplicit false

/-! # The job system, statement by statement inside its queues

In `Step.lean` an operation of a `JobQueue` is one step. Here it is what `job/job_queue.cpp` makes
of it: the attempts to take the flag, then one access to the queue or to a link at a time, then
the clearing of the flag (`Queue/Lock.lean`), and the steps of the other threads in between. The
bins, which only their own thread uses, are still used in one step.

`Locked.step` drives both: an action whose next statement is an operation of a `JobQueue`
(`State.request`) goes through the statements of the operation, and does with the result what
the code does after the call (`State.resume`). Every other action is a step of `Step.lean`.

`locked_refines`: as long as no job is scheduled with a parent, what such a run does is what a
run of `Step.lean` does in which each operation happens at once, at the clearing of its flag.
-/

namespace Bop.JobSystem

open Lock Transition

/-! ## An operation and what follows it -/

/-- The operation of a `JobQueue` that is the next statement of the action. -/
def State.request (s : State) : Action → Option (QueueOp QueueId Addr)
  | .call t =>
      match s.call t with
      | .pushGlobal work => some (.push (.globalQueue (s.tidx t)) work)
      | .pushLocal work => some (.push (.localQueue t.threadIndex) work)
      | _ => none
  | .work i =>
      if i < s.size then
        match (s.worker i).pc with
        | .popLocal => some (.pop (.localQueue i))
        | .popGlobal => some (.pop (.globalQueue i))
        | .stealPop _ => some (.pop (.globalQueue (s.worker i).stealFrom))
        | .drain .globalQueue => some (.pop (.globalQueue i))
        | .drain .localQueue => some (.pop (.localQueue i))
        | .drainClear .globalQueue => some (.clear (.globalQueue i))
        | .drainClear .localQueue => some (.clear (.localQueue i))
        | _ => none
      else none
  | _ => none

/-- What the thread does with the result of the operation. -/
def State.resume (s : State) : Action → QueueResult Addr → State
  | .call t, _ =>
      match s.call t with
      | .pushGlobal work | .pushLocal work => -- schedule() returns
          (s.setCall t .idle).record (.scheduled (s.jobs work).work work)
      | _ => s
  | .work i, r =>
      match (s.worker i).pc, r with
      | .popLocal, .popped none => s.goto i .popGlobal
      | .popLocal, .popped (some job) => s.gotoVia i (.stealCount (some job)) none
      | .popGlobal, .popped job => s.gotoVia i (.stealCount job) none
      | .stealPop n, .popped job => s.gotoVia i (.stealTest job n) none
      | .drain _, .popped (some job) => deallocate s job
      | .drain r, .popped none => s.goto i (.drainClear r)
      | .drainClear r, _ => (s.goto i r.next).record (.drained i r)
      | _, _ => s
  | _, _ => s

def State.withStore (s : State) (st : Store QueueId Addr) : State := { s with store := st }

section

variable {s s' : State} {x : Action} {op : QueueOp QueueId Addr} {st : Store QueueId Addr}

/-- **The operation, then the rest**: this is the step of `Step.lean`. -/
theorem step_request (h : s.request x = some op) :
    step s x = some ((s.resume x (applyOp (fun _ => .jobQueue) s.store op).1).withStore
      (applyOp (fun _ => .jobQueue) s.store op).2) := by
  rw [applyOp_eq]
  cases x with
  | schedule | jobThen | shutdown | finish => cases h
  | call t =>
      cases hc : s.call t with
      | pushGlobal a | pushLocal a =>
          simp only [State.request, hc] at h
          cases h
          simp only [step, callStep, State.resume, hc]
          rfl
      | _ =>
          simp only [State.request, hc] at h
          cases h
  | work i =>
      simp only [State.request] at h
      split at h
      case isFalse => cases h
      case isTrue hi =>
        rw [step, if_pos hi]
        cases hpc : (s.worker i).pc with
        | popLocal =>
            rw [hpc] at h
            cases h
            simp only [State.resume, hpc]
            cases hpop : s.store.pop (.localQueue i) with
            | mk o st =>
                cases o with
                | none => exact (WorkerMove.noLocal hpc hpop).step
                | some a => exact (WorkerMove.popLocal hpc hpop).step
        | popGlobal =>
            rw [hpc] at h
            cases h
            simp only [State.resume, hpc]
            exact (WorkerMove.popGlobal hpc rfl).step
        | stealPop n =>
            rw [hpc] at h
            cases h
            simp only [State.resume, hpc]
            exact (WorkerMove.stealPop hpc rfl).step
        | drain r =>
            have hr : op = .pop (r.queue i) := by
              rw [hpc] at h
              cases r <;> cases h <;> rfl
            subst hr
            simp only [State.resume, hpc]
            cases hpop : s.store.pop (r.queue i) with
            | mk o st =>
                cases o with
                | none => exact (WorkerMove.drained hpc hpop).step
                | some a => exact (WorkerMove.drain hpc hpop).step
        | drainClear r =>
            have hr : op = .clear (r.queue i) := by
              rw [hpc] at h
              cases r <;> cases h <;> rfl
            subst hr
            simp only [State.resume, hpc]
            exact (WorkerMove.drainClear hpc).step
        | _ =>
            rw [hpc] at h
            cases h

end

/-! ## Two stores -/

/-- The shared memory `st` in the middle of operations, and a store `st'` without any: both are
about the lists `c`, and nobody is in a bin. -/
structure Paired (flag : QueueId → Bool) (pc : Tid → Lock.Pc QueueId Addr)
    (st st' : Store QueueId Addr) (c : QueueId → List Addr) : Prop where
  guarded : Guarded flag st pc c
  holds : st'.Holds c
  bins : ∀ q, q.isBin = true → flag q = false

section Paired

variable {flag : QueueId → Bool} {pc : Tid → Lock.Pc QueueId Addr}
variable {st st' : Store QueueId Addr} {c : QueueId → List Addr}
variable {s s' : State} {x : Action} {t : Tid} {i : Nat} {a : Addr} {q : QueueId}

/-- An operation on a bin. -/
theorem Paired.apply {op : QueueOp QueueId Addr} (h : Paired flag pc st st' c)
    (hop : MayCall pc c op) (hq : op.queue.isBin = true) :
    (applyOp (fun _ => .jobQueueNonThreadsafe) st' op).1 =
        (applyOp (fun _ => .jobQueueNonThreadsafe) st op).1 ∧
      Paired flag pc (applyOp (fun _ => .jobQueueNonThreadsafe) st op).2
        (applyOp (fun _ => .jobQueueNonThreadsafe) st' op).2 (fifoOp c op).2 := by
  obtain ⟨hres, hst⟩ := h.guarded.apply (fun _ => .jobQueueNonThreadsafe) hop (h.bins _ hq)
  obtain ⟨hres', hst'⟩ := applyOp_refines (fun _ => .jobQueueNonThreadsafe) h.holds hop.1
  exact ⟨hres'.trans hres.symm, hst, hst', h.bins⟩

theorem Paired.pop (h : Paired flag pc st st' c) (hq : q.isBin = true) :
    (st'.pop q).1 = (st.pop q).1 ∧ (st.pop q).1 = (c q).head? ∧
      Paired flag pc (st.pop q).2 (st'.pop q).2 (Function.update c q (c q).tail) := by
  have hop := mayCall_pop pc c q
  have hres := (h.guarded.apply (fun _ => .jobQueueNonThreadsafe) hop (h.bins q hq)).1
  obtain ⟨hres', hp⟩ := h.apply hop hq
  exact ⟨QueueResult.popped.inj hres', QueueResult.popped.inj hres, hp⟩

theorem Paired.clear (h : Paired flag pc st st' c) (hq : q.isBin = true) :
    Paired flag pc (st.clear q).2 (st'.clear q).2 (Function.update c q []) :=
  (h.apply (mayCall_clear pc c q) hq).2

theorem Paired.push (h : Paired flag pc st st' c) (hq : q.isBin = true) (ha : ∀ q, a ∉ c q)
    (hun : Unused pc a) :
    Paired flag pc (st.push q a) (st'.push q a) (Function.update c q (c q ++ [a])) := by
  have hop : MayCall pc c (.push q a) := ⟨ha, fun b hb => List.mem_singleton.mp hb ▸ hun⟩
  exact (h.apply hop hq).2

theorem Paired.size (h : Paired flag pc st st' c) (hq : q.isBin = true) :
    st'.size q = st.size q :=
  QueueResult.entries.inj (h.apply (mayCall_size pc c q) hq).1

theorem Paired.clearNext (h : Paired flag pc st st' c) (ha : ∀ q, a ∉ c q) (hun : Unused pc a) :
    Paired flag pc (st.clearNext a) (st'.clearNext a) c :=
  ⟨h.guarded.clearNext ha hun, h.holds.clearNext ha, h.bins⟩

/-- A storage that is in no queue and in no operation. -/
structure Apart (pc : Tid → Lock.Pc QueueId Addr) (c : QueueId → List Addr) (a : Addr) :
    Prop where
  out : ∀ q, a ∉ c q
  unused : Unused pc a

/-- The storages that a step uses outside the queues: the one that `construct` may allocate, and
the one of the job that a worker recycles. -/
structure Free (s : State) (pc : Tid → Lock.Pc QueueId Addr) (c : QueueId → List Addr) :
    Prop where
  fresh : ∀ {a}, a ∉ s.live → Apart pc c a
  recycled : ∀ {i a callers d}, (s.worker i).pc = .complete (.recycle a callers) d →
    Apart pc c a

/-- `construct`, in both stores. -/
theorem Paired.construct {fresh : Addr} (h : Paired flag pc s.store st' c)
    (parent : Option Addr) (threadIndex : Option Nat) (hfresh : Apart pc c fresh) :
    ∃ st₁ c₁, construct (s.withStore st') t parent threadIndex fresh =
        ((construct s t parent threadIndex fresh).1.withStore st₁,
          (construct s t parent threadIndex fresh).2) ∧
      Paired flag pc (construct s t parent threadIndex fresh).1.store st₁ c₁ := by
  obtain ⟨heq, hhead, hp⟩ := h.pop (q := .recyclingBin t) rfl
  rcases construct_cases s t parent threadIndex fresh with ⟨a, st, hpop, hc⟩ | ⟨st, hpop, hc⟩
  · -- the popped storage is in no queue any more, and was in no operation
    rw [hpop] at heq hhead hp
    have hmem : a ∈ c (.recyclingBin t) := List.mem_of_head? hhead.symm
    have hout : ∀ q, a ∉ Function.update c (.recyclingBin t) (c (.recyclingBin t)).tail q := by
      intro q hq
      by_cases hqq : q = .recyclingBin t
      · subst hqq
        rw [Function.update_self] at hq
        obtain ⟨l, hl⟩ : ∃ l, c (.recyclingBin t) = a :: l := List.head?_eq_some_iff.mp hhead.symm
        have hnd := h.guarded.separate.nodup (.recyclingBin t)
        rw [hl] at hq hnd
        exact (List.nodup_cons.mp hnd).1 hq
      · rw [Function.update_of_ne hqq] at hq
        exact hqq (h.guarded.separate.disjoint hq hmem)
    have hun : Unused pc a := fun u q hu => h.guarded.outside hu _ hmem
    refine ⟨(st'.pop (.recyclingBin t)).2.clearNext a,
      Function.update c (.recyclingBin t) (c (.recyclingBin t)).tail, ?_, ?_⟩
    · rcases construct_cases (s.withStore st') t parent threadIndex fresh with
        ⟨b, st₂, hpop', hc'⟩ | ⟨st₂, hpop', hc'⟩
      · have hpop'' : st'.pop (.recyclingBin t) = (some b, st₂) := hpop'
        rw [hpop''] at heq ⊢
        obtain rfl : b = a := Option.some.inj heq
        rw [hc, hc']
        rfl
      · have hpop'' : st'.pop (.recyclingBin t) = (none, st₂) := hpop'
        rw [hpop''] at heq
        cases heq
    · rw [hc]
      exact hp.clearNext hout hun
  · rw [hpop] at heq hhead hp
    have hnil : c (.recyclingBin t) = [] := List.head?_eq_none_iff.mp hhead.symm
    have hid : Function.update c (.recyclingBin t) (c (.recyclingBin t)).tail = c := by
      rw [hnil, List.tail_nil, ← hnil, Function.update_eq_self]
    rw [hid] at hp
    refine ⟨(st'.pop (.recyclingBin t)).2.clearNext fresh, c, ?_, ?_⟩
    · rcases construct_cases (s.withStore st') t parent threadIndex fresh with
        ⟨b, st₂, hpop', hc'⟩ | ⟨st₂, hpop', hc'⟩
      · have hpop'' : st'.pop (.recyclingBin t) = (some b, st₂) := hpop'
        rw [hpop''] at heq
        cases heq
      · have hpop'' : st'.pop (.recyclingBin t) = (none, st₂) := hpop'
        rw [hpop'', hc, hc']
        rfl
    · rw [hc]
      exact hp.clearNext hfresh.out hfresh.unused

/-- `recycle`, in both stores. -/
theorem Paired.recycle (h : Paired flag pc s.store st' c) (ha : Apart pc c a) :
    ∃ st₁ c₁, recycle (s.withStore st') t a = (recycle s t a).withStore st₁ ∧
      Paired flag pc (recycle s t a).store st₁ c₁ := by
  have hsize : JobQueueNonThreadsafe.size (s.withStore st').store (.recyclingBin t) =
      JobQueueNonThreadsafe.size s.store (.recyclingBin t) := h.size rfl
  unfold JobSystem.recycle
  rw [hsize]
  split
  · exact ⟨_, _, rfl, h.push rfl ha.out ha.unused⟩
  · exact ⟨_, _, rfl, h.push rfl ha.out ha.unused⟩

theorem Paired.completionStep {e : Completion} (h : Paired flag pc s.store st' c)
    (ha : ∀ a callers, e = .recycle a callers → Apart pc c a) :
    ∃ st₁ c₁, completionStep (s.withStore st') t e =
        ((completionStep s t e).1.withStore st₁, (completionStep s t e).2) ∧
      Paired flag pc (completionStep s t e).1.store st₁ c₁ := by
  cases e with
  | fetchSub a callers => cases callers <;> exact ⟨st', c, rfl, h⟩
  | ascend a callers =>
      cases hp : (s.jobs a).parent with
      | none =>
          refine ⟨st', c, ?_, ?_⟩
          · simp [JobSystem.completionStep, State.withStore, State.record, hp]
          · simpa [JobSystem.completionStep, State.record, hp] using h
      | some b =>
          refine ⟨st', c, ?_, ?_⟩
          · simp [JobSystem.completionStep, State.withStore, hp]
          · simpa [JobSystem.completionStep, hp] using h
  | recycle a callers =>
      obtain ⟨st₁, c₁, heq, hp⟩ := h.recycle (t := t) (ha a callers rfl)
      exact ⟨st₁, c₁, congrArg (fun y => (y, unwind callers)) heq, hp⟩

theorem handOver_withStore (s : State) (st : Store QueueId Addr) (a : Addr) (o : Option Addr) :
    handOver (s.withStore st) a o = (handOver s a o).withStore st ∧
      (handOver s a o).store = s.store := by
  cases o with
  | none => exact ⟨rfl, rfl⟩
  | some b => cases hp : (s.jobs a).parent <;> simp [handOver, State.withStore, State.setJob, hp]

/-- A step of a call that is no operation of a `JobQueue` does not use the store. -/
theorem Paired.callStep (h : Paired flag pc s.store st' c) (hreq : s.request (.call t) = none)
    (hs : callStep s t = some s') :
    callStep (s.withStore st') t = some (s'.withStore st') ∧ Paired flag pc s'.store st' c := by
  cases callStep_move hs with
  | shared hc hti => exact ⟨CallMove.step (s := s.withStore st') (.shared hc hti), h⟩
  | own hc hti => exact ⟨CallMove.step (s := s.withStore st') (.own hc hti), h⟩
  | balance hc => exact ⟨CallMove.step (s := s.withStore st') (.balance hc), h⟩
  | attach hc => exact ⟨CallMove.step (s := s.withStore st') (.attach hc), h⟩
  | reread hc => exact ⟨CallMove.step (s := s.withStore st') (.reread hc), h⟩
  | pushGlobal hc | pushLocal hc =>
      simp only [State.request, hc] at hreq
      cases hreq

/-- Neither does a step of a worker, unless it uses a bin. -/
theorem Paired.workerStep (h : Paired flag pc s.store st' c) (hfree : Free s pc c)
    (hi : i < s.size) (hreq : s.request (.work i) = none) (hs : workerStep s i = some s') :
    ∃ st₁ c₁, workerStep (s.withStore st') i = some (s'.withStore st₁) ∧
      Paired flag pc s'.store st₁ c₁ := by
  have hmove : ∀ {s₁ : State} {st₁ : Store QueueId Addr},
      WorkerMove (s.withStore st') i (s₁.withStore st₁) →
        JobSystem.workerStep (s.withStore st') i = some (s₁.withStore st₁) := fun hm => hm.step
  simp only [State.request, if_pos hi] at hreq
  have hbin : ∀ r, ((s.worker i).pc = .drain r ∨ (s.worker i).pc = .drainClear r) →
      (r.queue i).isBin = true := by
    rintro r (hpc | hpc)
    · rw [hpc] at hreq
      cases r <;> first | rfl | cases hreq
    · rw [hpc] at hreq
      cases r <;> first | rfl | cases hreq
  cases workerStep_move hs with
  | start hpc => exact ⟨st', c, hmove (.start hpc), h⟩
  | arrive hpc => exact ⟨st', c, hmove (.arrive hpc), h⟩
  | spin hpc hr => exact ⟨st', c, hmove (.spin hpc hr), h⟩
  | released hpc hr => exact ⟨st', c, hmove (.released hpc hr), h⟩
  | stealInit hpc => exact ⟨st', c, hmove (.stealInit hpc), h⟩
  | stay hpc hr => exact ⟨st', c, hmove (.stay hpc hr), h⟩
  | leave hpc hr => exact ⟨st', c, hmove (.leave hpc hr), h⟩
  | noLocal hpc | popLocal hpc | popGlobal hpc | stealPop hpc =>
      rw [hpc] at hreq
      cases hreq
  | stealCount hpc => exact ⟨st', c, hmove (.stealCount hpc), h⟩
  | hasJob hpc => exact ⟨st', c, hmove (.hasJob hpc), h⟩
  | stealOn hpc hr => exact ⟨st', c, hmove (.stealOn hpc hr), h⟩
  | stealEnd hpc hr => exact ⟨st', c, hmove (.stealEnd hpc hr), h⟩
  | stealNext hpc => exact ⟨st', c, hmove (.stealNext hpc), h⟩
  | noJob hpc => exact ⟨st', c, hmove (.noJob hpc), h⟩
  | execute hpc => exact ⟨st', c, hmove (.execute hpc), h⟩
  | storeTrace hpc => exact ⟨st', c, hmove (.storeTrace hpc), h⟩
  | readContinuation hpc => exact ⟨st', c, hmove (.readContinuation hpc), h⟩
  | @handOver a o hpc =>
      obtain ⟨heq, hstore⟩ := handOver_withStore s st' a o
      have hm : WorkerMove (s.withStore st') i _ := .handOver (a := a) (o := o) hpc
      rw [heq] at hm
      exact ⟨st', c, hm.step, hstore.symm ▸ h⟩
  | @complete e e' o s₁ hpc hc =>
      obtain ⟨st₁, c₁, heq, hp⟩ := h.completionStep (t := .worker i) (e := e)
        (fun a callers he => hfree.recycled (he ▸ hpc))
      rw [hc] at heq hp
      have hpc' : ((s.withStore st').worker i).pc = .complete e o := hpc
      exact ⟨st₁, c₁, (WorkerMove.complete hpc' heq).step, hp⟩
  | @completed e o s₁ hpc hc =>
      obtain ⟨st₁, c₁, heq, hp⟩ := h.completionStep (t := .worker i) (e := e)
        (fun a callers he => hfree.recycled (he ▸ hpc))
      rw [hc] at heq hp
      have hpc' : ((s.withStore st').worker i).pc = .complete e o := hpc
      exact ⟨st₁, c₁, (WorkerMove.completed hpc' heq).step, hp⟩
  | collect hpc hr => exact ⟨_, _, hmove (.collect hpc hr), h.clear rfl⟩
  | idle hpc hr => exact ⟨st', c, hmove (.idle hpc hr), h⟩
  | @drain r a st hpc hpop =>
      have hr : (r.queue i).isBin = true := hbin r (Or.inl hpc)
      obtain ⟨heq, -, hp⟩ := h.pop hr
      rw [hpop] at heq hp
      have hpop' : (s.withStore st').store.pop (r.queue i) =
          (some a, (st'.pop (r.queue i)).2) := Prod.ext heq rfl
      exact ⟨_, _, hmove (.drain hpc hpop'), hp⟩
  | @drained r st hpc hpop =>
      have hr : (r.queue i).isBin = true := hbin r (Or.inl hpc)
      obtain ⟨heq, -, hp⟩ := h.pop hr
      rw [hpop] at heq hp
      have hpop' : (s.withStore st').store.pop (r.queue i) =
          (none, (st'.pop (r.queue i)).2) := Prod.ext heq rfl
      exact ⟨_, _, hmove (.drained hpc hpop'), hp⟩
  | @drainClear r hpc => exact ⟨_, _, hmove (.drainClear hpc), h.clear (hbin r (Or.inr hpc))⟩
  | countdown hpc => exact ⟨st', c, hmove (.countdown hpc), h⟩
  | saveTracelog hpc => exact ⟨st', c, hmove (.saveTracelog hpc), h⟩
  | setComplete hpc => exact ⟨st', c, hmove (.setComplete hpc), h⟩

/-- **A step that is no operation of a `JobQueue` does the same with both stores.** -/
theorem Paired.step (h : Paired flag pc s.store st' c) (hfree : Free s pc c)
    (hreq : s.request x = none) (hs : step s x = some s') :
    ∃ st₁ c₁, step (s.withStore st') x = some (s'.withStore st₁) ∧
      Paired flag pc s'.store st₁ c₁ := by
  cases x with
  | schedule t parent threadIndex fresh =>
      obtain ⟨hcode, hlive, href, rfl⟩ := step_schedule hs
      obtain ⟨st₁, c₁, heq, hp⟩ :=
        h.construct (t := t) (parent.map Prod.snd) threadIndex (hfree.fresh hlive)
      have hcode' : UserCode (s.withStore st') t := by cases t <;> exact hcode
      refine ⟨st₁, c₁, (if_pos ⟨hcode', hlive, href⟩).trans ?_, hp⟩
      simp only [schedule, heq]
      rfl
  | jobThen t of job threadIndex fresh =>
      obtain ⟨hcode, hlive, href, rfl⟩ := step_jobThen hs
      obtain ⟨st₁, c₁, heq, hp⟩ := h.construct (t := t) none threadIndex (hfree.fresh hlive)
      have hcode' : UserCode (s.withStore st') t := by cases t <;> exact hcode
      refine ⟨st₁, c₁, (if_pos ⟨hcode', hlive, href⟩).trans ?_, hp⟩
      simp only [jobThen, heq]
      rfl
  | call t =>
      obtain ⟨heq, hp⟩ := h.callStep hreq hs
      exact ⟨st', c, heq, hp⟩
  | shutdown t =>
      obtain ⟨hcode, rfl⟩ := step_shutdown hs
      have hcode' : UserCode (s.withStore st') t := by cases t <;> exact hcode
      exact ⟨st', c, if_pos hcode', h⟩
  | finish i =>
      obtain ⟨job, hpc, hidle, hi, rfl⟩ := step_finish hs
      refine ⟨st', c, ?_, h⟩
      have hpc' : ((s.withStore st').worker i).pc = .running job := hpc
      simp only [JobSystem.step, hpc']
      exact if_pos ⟨hidle, hi⟩
  | work i =>
      obtain ⟨hi, hw⟩ := step_work hs
      obtain ⟨st₁, c₁, heq, hp⟩ := h.workerStep hfree hi hreq hw
      exact ⟨st₁, c₁, (if_pos hi).trans heq, hp⟩

end Paired

/-! ## The system -/

/-- The state of the job system with the statements inside the queues: `base.store` is the memory
that the statements read and write. -/
structure Locked where
  base : State
  flag : QueueId → Bool
  pc : Tid → Lock.Pc QueueId Addr

namespace Locked

def init (n : Nat) : Locked := ⟨JobSystem.init n, fun _ => false, fun _ => .idle⟩

def step (f : Locked) (x : Action) : Option Locked :=
  match f.base.request x with
  | none => (JobSystem.step f.base x).map fun s => { f with base := s }
  | some op =>
      match f.pc x.thread with
      | .idle => some { f with pc := Function.update f.pc x.thread (.acquire op) }
      | .acquire _ =>
          if f.flag op.queue then some f -- the attempt failed, try again
          else some { f with
            flag := Function.update f.flag op.queue true
            pc := Function.update f.pc x.thread (entry op) }
      | .release _ result => some {
          base := f.base.resume x result
          flag := Function.update f.flag op.queue false
          pc := Function.update f.pc x.thread .idle }
      | pc => (statement f.base.store pc).map fun (st, pc') =>
          { f with base := f.base.withStore st, pc := Function.update f.pc x.thread pc' }

/-- The action of `Step.lean` that happens with the step: an operation of a `JobQueue` happens at
the clearing of its flag, every other action at once. -/
def label (f : Locked) (x : Action) : Option Action :=
  match f.base.request x, f.pc x.thread with
  | none, _ => some x
  | some _, .release _ _ => some x
  | some _, _ => none

end Locked

/-! ## One operation at a time -/

section Refines

variable {f f' : Locked} {s s' : State} {x y : Action} {op op' : QueueOp QueueId Addr} {t : Tid}

theorem request_withStore (s : State) (st : Store QueueId Addr) (x : Action) :
    (s.withStore st).request x = s.request x := by cases x <;> rfl

theorem resume_withStore (s : State) (st : Store QueueId Addr) (x : Action)
    (r : QueueResult Addr) : (s.withStore st).resume x r = (s.resume x r).withStore st := by
  cases x with
  | schedule | jobThen | shutdown | finish => rfl
  | call t =>
      cases hc : s.call t with
      | _ => simp only [State.resume, State.withStore, hc] <;> rfl
  | work i =>
      cases hpc : (s.worker i).pc with
      | popLocal | drain =>
          cases r with
          | popped o => cases o <;> simp only [State.resume, State.withStore, hpc] <;> rfl
          | _ => simp only [State.resume, State.withStore, hpc]
      | popGlobal | stealPop | drainClear =>
          cases r <;> simp only [State.resume, State.withStore, hpc] <;> rfl
      | _ => simp only [State.resume, State.withStore, hpc]

theorem resume_store (s : State) (x : Action) (r : QueueResult Addr) :
    (s.resume x r).store = s.store := by
  have h : s.resume x r = (s.resume x r).withStore s.store := resume_withStore s s.store x r
  rw [h]
  rfl

/-- The operation that a thread is about to execute does not depend on the other threads. -/
theorem request_others (hs : step s x = some s') (hy : x.thread ≠ y.thread) :
    s'.request y = s.request y := by
  obtain ⟨hc, ht, hw⟩ := step_others hs hy
  cases y with
  | schedule | jobThen | shutdown | finish => rfl
  | call t =>
      have hc' : s'.call t = s.call t := hc
      have ht' : s'.tidx t = s.tidx t := ht
      simp only [State.request, hc', ht']
  | work i => simp only [State.request, step_size hs, hw i rfl]

/-- A thread is about to execute one operation at most. -/
theorem State.CallsInWork.request_unique (h : s.CallsInWork) (hxy : x.thread = y.thread)
    (hx : s.request x = some op) (hy : s.request y = some op') : op = op' := by
  -- a worker that is in a call is inside a work
  have hboth : ∀ {i : Nat} {op₁ op₂ : QueueOp QueueId Addr},
      s.request (.call (.worker i)) = some op₁ → s.request (.work i) ≠ some op₂ := by
    intro i op₁ op₂ h₁ h₂
    obtain ⟨job, hpc⟩ := h i fun hidle => by
      simp only [State.request, hidle] at h₁
      cases h₁
    simp only [State.request, hpc] at h₂
    split at h₂ <;> cases h₂
  cases x with
  | schedule | jobThen | shutdown | finish => cases hx
  | call t =>
      cases y with
      | schedule | jobThen | shutdown | finish => cases hy
      | call u =>
          obtain rfl : t = u := hxy
          exact Option.some.inj (hx.symm.trans hy)
      | work i =>
          obtain rfl : t = .worker i := hxy
          exact absurd hy (hboth hx)
  | work i =>
      cases y with
      | schedule | jobThen | shutdown | finish => cases hy
      | call u =>
          obtain rfl : .worker i = u := hxy
          exact absurd hx (hboth hy)
      | work j =>
          obtain rfl : i = j := Tid.worker.inj hxy
          exact Option.some.inj (hx.symm.trans hy)

/-- A thread that is about to execute an operation does nothing else. -/
theorem State.CallsInWork.request_none (h : s.CallsInWork) (hxy : x.thread = y.thread)
    (hx : s.request x = some op) (hy : s.request y = none) : JobSystem.step s y = none := by
  by_contra hne
  obtain ⟨s', hs⟩ := Option.ne_none_iff_exists'.mp hne
  -- user code runs in threads that are in no call, and in workers inside a work
  have hcode : ¬ UserCode s x.thread := by
    intro hcode
    cases x with
    | schedule | jobThen | shutdown | finish => cases hx
    | call t =>
        have hidle : s.call t = .idle := hcode.idle
        simp only [State.request, hidle] at hx
        cases hx
    | work i =>
        obtain ⟨-, -, job, hpc⟩ := hcode
        simp only [State.request, hpc] at hx
        split at hx <;> cases hx
  cases y with
  | schedule t => exact hcode (hxy ▸ (step_schedule hs).1)
  | jobThen t => exact hcode (hxy ▸ (step_jobThen hs).1)
  | shutdown t => exact hcode (hxy ▸ (step_shutdown hs).1)
  | finish i =>
      obtain ⟨job, hpc, hidle, hi, -⟩ := step_finish hs
      exact hcode (hxy ▸ (⟨hidle, hi, job, hpc⟩ : UserCode s (.worker i)))
  | call t =>
      cases x with
      | schedule | jobThen | shutdown | finish => cases hx
      | call u =>
          obtain rfl : u = t := hxy
          rw [hx] at hy
          cases hy
      | work i =>
          obtain rfl : .worker i = t := hxy
          obtain ⟨job, hpc⟩ := h i fun hidle => by
            simp only [JobSystem.step, JobSystem.callStep, hidle] at hs
            cases hs
          simp only [State.request, hpc] at hx
          split at hx <;> cases hx
  | work i =>
      cases x with
      | schedule | jobThen | shutdown | finish => cases hx
      | work j =>
          obtain rfl : j = i := Tid.worker.inj hxy
          rw [hx] at hy
          cases hy
      | call u =>
          obtain rfl : u = .worker i := hxy
          obtain ⟨job, hpc⟩ := h i fun hidle => by
            simp only [State.request, hidle] at hx
            cases hx
          have hw := (step_work hs).2
          simp only [JobSystem.workerStep, hpc] at hw
          cases hw

/-- Only the queues that threads share are used with a flag. -/
theorem request_queue (h : s.request x = some op) : op.queue.isBin = false := by
  cases x with
  | schedule | jobThen | shutdown | finish => cases h
  | call t =>
      simp only [State.request] at h
      split at h <;> cases h <;> rfl
  | work i =>
      simp only [State.request] at h
      split at h
      case isFalse => cases h
      case isTrue => split at h <;> cases h <;> rfl

/-- The thread that pushes a job holds it. -/
theorem request_push {q : QueueId} {a : Addr} (h : s.request x = some (.push q a)) :
    (s.call x.thread).job = some a := by
  cases x with
  | schedule | jobThen | shutdown | finish => cases h
  | call t =>
      show (s.call t).job = some a
      simp only [State.request] at h
      cases hc : s.call t with
      | pushGlobal b | pushLocal b =>
          rw [hc] at h
          cases h
          rfl
      | _ =>
          rw [hc] at h
          cases h
  | work i =>
      simp only [State.request] at h
      split at h
      case isFalse => cases h
      case isTrue => split at h <;> cases h

/-! ## The simulation -/

/-- **The state `f` with operations in progress, and the state `s` of `Step.lean`.** They differ
in the memory of the queues only, where `s` has the operations that cleared their flags. -/
structure Refines (f : Locked) (s : State) : Prop where
  base : s = f.base.withStore s.store
  paired : ∃ c, Paired f.flag f.pc f.base.store s.store c
  busy : ∀ {t op}, (f.pc t).op = some op → ∃ x : Action, x.thread = t ∧ s.request x = some op

/-- What holds in the runs in which no job is scheduled with a parent. -/
structure Sound (s : State) : Prop where
  accounted : Accounted s
  rootless : s.Rootless
  callsInWork : s.CallsInWork

theorem Sound.step (h : Sound s) (hx : x.Parentless) (hs : step s x = some s') : Sound s' :=
  ⟨h.accounted.step (h.rootless.noneToTell x) hs, h.accounted.step_rootless h.rootless hx hs,
    h.callsInWork.step hs⟩

theorem sound_init (n : Nat) : Sound (init n) :=
  ⟨accounted_init n, rootless_init n, fun _ h => absurd rfl h⟩

theorem Refines.request (h : Refines f s) (x : Action) : f.base.request x = s.request x := by
  rw [h.base, request_withStore]

variable {c : QueueId → List Addr} {place : Addr → Option Place} {a : Addr}

/-- A job that is neither in a queue nor in a call is not used by an operation. -/
theorem Refines.apart (h : Refines f s) (hp : Paired f.flag f.pc f.base.store s.store c)
    (hv : Views s place) (hq : ∀ q, place a ≠ some (.queue q))
    (hc : ∀ t e, place a ≠ some (.call t e)) : Apart f.pc c a := by
  refine ⟨fun q ha => hq q ((hv.queue q a).mp (hp.holds.linked_iff.mpr ha)), fun t q ht => ?_⟩
  obtain ⟨x, rfl, hx⟩ := h.busy ht
  exact hc _ _ ((hv.call _ _ a).mp ⟨rfl, request_push hx⟩)

theorem Refines.free (h : Refines f s) (hp : Paired f.flag f.pc f.base.store s.store c)
    (hv : Views s place) (ho : (s.ledger place).InOrder) : Free f.base f.pc c := by
  have hlive : f.base.live = s.live := by rw [h.base]; rfl
  have hworker : f.base.worker = s.worker := by rw [h.base]; rfl
  constructor
  · intro a ha
    rw [hlive] at ha
    exact h.apart hp hv (fun q hq => ha (ho.valid.live hq)) fun t e he => ha (ho.valid.live he)
  · intro i a callers d hpc
    rw [hworker] at hpc
    have hrun : place a = some (.run i .recycled (s.worker i).via) := hv.current (by rw [hpc]; rfl)
    refine h.apart hp hv (fun q hq => ?_) fun t e he => ?_
    · rw [hrun] at hq
      cases hq
    · rw [hrun] at he
      cases he

/-- A job that a thread is about to push is in no queue, and nobody else pushes it. -/
theorem Refines.mayCall (h : Refines f s) (hp : Paired f.flag f.pc f.base.store s.store c)
    (hv : Views s place) (hx : s.request x = some op) (hidle : f.pc x.thread = .idle) :
    MayCall f.pc c op := by
  have hcall : ∀ {q a}, op = .push q a → place a = some (.call x.thread (s.call x.thread)) := by
    rintro q a rfl
    exact (hv.call _ _ a).mp ⟨rfl, request_push hx⟩
  constructor
  · cases op with
    | push q a =>
        intro q' ha
        have hq := (hv.queue q' a).mp (hp.holds.linked_iff.mpr ha)
        rw [hcall rfl] at hq
        cases hq
    | pop | clear | size => trivial
  · intro a ha t q' ht
    obtain ⟨q, rfl⟩ := mem_nodes ha
    obtain ⟨y, rfl, hy⟩ := h.busy ht
    have hplace := (hv.call _ _ a).mp ⟨rfl, request_push hy⟩
    rw [hcall rfl] at hplace
    -- the job is in one call, so the other thread is the one that is in no operation
    have hthread : x.thread = y.thread := (Place.call.inj (Option.some.inj hplace)).1
    rw [← hthread, hidle] at ht
    cases ht

/-- The operation that a thread is in is the one it asked for. -/
theorem Refines.op_eq (h : Refines f s) (hs : s.CallsInWork) (hx : s.request x = some op)
    (hpc : (f.pc x.thread).op = some op') : op' = op := by
  obtain ⟨y, hyx, hy⟩ := h.busy hpc
  exact hs.request_unique hyx hy hx

/-- A thread goes on in its operation, and the others stay where they are. -/
theorem Refines.goOn {f₁ : Locked} {p : Lock.Pc QueueId Addr} (h : Refines f s)
    (hx : s.request x = some op) (hbase : f₁.base.withStore s.store = f.base.withStore s.store)
    (hpaired : ∃ c, Paired f₁.flag f₁.pc f₁.base.store s.store c)
    (hpc : f₁.pc = Function.update f.pc x.thread p) (hp : p.op = some op) : Refines f₁ s := by
  refine ⟨h.base.trans hbase.symm, hpaired, fun {t op'} ht => ?_⟩
  rw [hpc] at ht
  by_cases htx : t = x.thread
  · rw [htx, Function.update_self, hp] at ht
    cases ht
    exact ⟨x, htx.symm, hx⟩
  · rw [Function.update_of_ne htx] at ht
    exact h.busy ht

/-- **One step.** It is none for `Step.lean`, or the same action there. -/
theorem Refines.step (h : Refines f s) (hsound : Sound s) (hs : Locked.step f x = some f') :
    (f.label x = none ∧ Refines f' s) ∨
      ∃ s', f.label x = some x ∧ JobSystem.step s x = some s' ∧ Refines f' s' := by
  obtain ⟨place, hv, ho⟩ := hsound.accounted
  obtain ⟨c, hp⟩ := h.paired
  cases hreq : s.request x with
  | none =>
      have hreq' : f.base.request x = none := (h.request x).trans hreq
      simp only [Locked.step, hreq'] at hs
      obtain ⟨b, hb, rfl⟩ := Option.map_eq_some_iff.mp hs
      obtain ⟨st₁, c₁, hstep, hp₁⟩ := hp.step (h.free hp hv ho) hreq' hb
      rw [← h.base] at hstep
      have hlabel : f.label x = some x := by simp only [Locked.label, hreq']
      refine Or.inr ⟨_, hlabel, hstep, rfl, ⟨c₁, hp₁⟩, fun {t op} ht => ?_⟩
      obtain ⟨y, rfl, hy⟩ := h.busy ht
      refine ⟨y, rfl, ?_⟩
      by_cases hxy : x.thread = y.thread
      · rw [hsound.callsInWork.request_none hxy.symm hy hreq] at hstep
        cases hstep
      · rw [request_others hstep hxy]
        exact hy
  | some op =>
      have hreq' : f.base.request x = some op := (h.request x).trans hreq
      have hsame : ∀ {op'}, (f.pc x.thread).op = some op' → op' = op :=
        fun hpc => h.op_eq hsound.callsInWork hreq hpc
      cases hpc : f.pc x.thread with
      | idle =>
          simp only [Locked.step, hreq', hpc] at hs
          obtain rfl := Option.some.inj hs
          refine Or.inl ⟨by simp only [Locked.label, hreq', hpc],
            h.goOn hreq rfl ⟨c, ?_, hp.holds, hp.bins⟩ rfl rfl⟩
          exact hp.guarded.call hpc (h.mayCall hp hv hreq hpc)
      | acquire op' =>
          obtain rfl : op' = op := hsame (by rw [hpc]; rfl)
          have hlabel : f.label x = none := by simp only [Locked.label, hreq', hpc]
          simp only [Locked.step, hreq', hpc] at hs
          cases hf : f.flag op'.queue with
          | true =>
              rw [hf, if_pos rfl] at hs
              exact Or.inl ⟨hlabel, Option.some.inj hs ▸ h⟩
          | false =>
              rw [hf, if_neg Bool.false_ne_true] at hs
              obtain rfl := Option.some.inj hs
              refine Or.inl ⟨hlabel, h.goOn hreq rfl ⟨c, hp.guarded.acquire hpc hf, hp.holds,
                fun q hq => ?_⟩ rfl (Pc.op_of_held (held_entry op'))⟩
              have hqq : q ≠ op'.queue := by
                rintro rfl
                rw [request_queue hreq] at hq
                cases hq
              exact (Function.update_of_ne hqq _ _).trans (hp.bins q hq)
      | release op' r =>
          obtain rfl : op' = op := hsame (by rw [hpc]; rfl)
          simp only [Locked.step, hreq', hpc] at hs
          obtain rfl := Option.some.inj hs
          obtain ⟨hr, hguarded⟩ := hp.guarded.release hpc
          have hallowed : op'.Allowed c := by
            cases op' with
            | push q a => exact hp.guarded.outside (t := x.thread) (by rw [hpc]; rfl)
            | pop | clear | size => trivial
          -- the operation of `Step.lean` happens here
          obtain ⟨hr', hholds⟩ := applyOp_refines (fun _ => .jobQueue) hp.holds hallowed
          have hstep := step_request hreq
          rw [hr', ← hr, h.base, resume_withStore, ← h.base] at hstep
          have hlabel : f.label x = some x := by simp only [Locked.label, hreq', hpc]
          refine Or.inr ⟨_, hlabel, hstep, rfl,
            ⟨(fifoOp c op').2, ?_, hholds, fun q hq => ?_⟩, fun {t op} ht => ?_⟩
          · rw [resume_store]
            exact hguarded
          · have hqq : q ≠ op'.queue := by
              rintro rfl
              rw [request_queue hreq] at hq
              cases hq
            exact (Function.update_of_ne hqq _ _).trans (hp.bins q hq)
          · have htx : t ≠ x.thread := by
              rintro rfl
              simp only [Function.update_self] at ht
              cases ht
            simp only [Function.update_of_ne htx] at ht
            obtain ⟨y, rfl, hy⟩ := h.busy ht
            exact ⟨y, rfl, (request_others hstep htx.symm).trans hy⟩
      | _ =>
          simp only [Locked.step, hreq', hpc] at hs
          obtain ⟨⟨st, pc'⟩, hstmt, rfl⟩ := Option.map_eq_some_iff.mp hs
          rw [← hpc] at hstmt
          obtain ⟨op₁, hheld, hheld', -, -⟩ := statement_frame hstmt (hp.guarded.inside x.thread)
          obtain rfl := hsame (Pc.op_of_held hheld)
          exact Or.inl ⟨by simp only [Locked.label, hreq', hpc],
            h.goOn hreq rfl ⟨c, hp.guarded.statement hstmt, hp.holds, hp.bins⟩ rfl
              (Pc.op_of_held hheld')⟩

end Refines

/-! ## Runs -/

section Runs

variable {n : Nat} {f f' : Locked} {tr tr' : List (Locked × Action)} {s : State} {x : Action}
  {t : Tid} {op : QueueOp QueueId Addr}

theorem refines_init (n : Nat) : Refines (Locked.init n) (init n) where
  base := rfl
  paired := ⟨fun _ => [], guarded_init _, Store.empty_holds _, fun _ _ => rfl⟩
  busy h := nomatch h

/-- Every run has one of `Step.lean` beside it. -/
theorem locked_simulated (h : Run Locked.step (Locked.init n) tr f)
    (hx : ∀ p ∈ tr, p.2.Parentless) :
    ∃ tr' s, Run step (init n) tr' s ∧
      tr'.map Prod.snd = tr.filterMap (fun p => p.1.label p.2) ∧ Refines f s ∧ Sound s := by
  obtain ⟨tr', s, hrun, hR, hlabels⟩ := h.simulated_labels
    (R := fun f s => Refines f s ∧ Sound s) (C := fun _ x => x.Parentless)
    ⟨refines_init n, sound_init n⟩
    (fun {f s x f'} hR hpar hs => by
      rcases hR.1.step hR.2 hs with ⟨hl, hf'⟩ | ⟨s', hl, hs', hf'⟩
      · exact Or.inl ⟨hl, hf', hR.2⟩
      · exact Or.inr ⟨x, s', hl, hs', hf', hR.2.step hpar hs'⟩) hx
  exact ⟨tr', s, hrun, hlabels, hR⟩

/-- **Atomic queue operations are a sound abstraction.** Take a run in which the statements of the
threads interleave inside the queues, and no job is scheduled with a parent. There is a run in
which each operation is one step, taken by the same threads and exactly where the operation cleared
its flag (`Locked.label`), that ends with the same jobs, workers, calls, traces and record. A queue
whose flag is clear has the same members in both, and the same jobs in the same order. -/
theorem locked_refines (h : Run Locked.step (Locked.init n) tr f)
    (hx : ∀ p ∈ tr, p.2.Parentless) :
    ∃ tr' s, Run step (init n) tr' s ∧ tr'.map Prod.snd = tr.filterMap (fun p => p.1.label p.2) ∧
      f.base = s.withStore f.base.store ∧
      ∀ q, f.flag q = false → f.base.store.queue q = s.store.queue q ∧
        ∃ l, IntrusiveList.Chain f.base.store.next (f.base.store.queue q).head l ∧
          IntrusiveList.Chain s.store.next (s.store.queue q).head l := by
  obtain ⟨tr', s, hrun, hlabels, hR, -⟩ := locked_simulated h hx
  obtain ⟨c, hp⟩ := hR.paired
  refine ⟨tr', s, hrun, hlabels, ?_, fun q hq => ?_⟩
  · rw [hR.base]
    rfl
  · obtain ⟨hrepr, hcount⟩ := hp.guarded.free hq
    have hrepr' := hp.holds.repr q
    refine ⟨?_, c q, hrepr.chain, hrepr'.chain⟩
    -- the members are determined by the list
    have hhead := hrepr.head_eq.trans hrepr'.head_eq.symm
    have htail := hrepr.tail_eq.trans hrepr'.tail_eq.symm
    have hnum := hcount.trans (hp.holds.count q).symm
    cases hy : f.base.store.queue q
    cases hz : s.store.queue q
    simp only [hy, hz] at hhead htail hnum
    rw [hhead, htail, hnum]

/-- One client waits for the flag while another one is inside its push, and is inside its own push
when the other one has its reference. -/
def twoPushes : List Action :=
  [.schedule (.client 0) none none 7, .call (.client 0), .call (.client 0),
    .schedule (.client 1) none none 8, .call (.client 1), .call (.client 1),
    .call (.client 0), .call (.client 1), .call (.client 0), .call (.client 1)] ++
    List.replicate 8 (.call (.client 0)) ++ List.replicate 3 (.call (.client 1))

theorem twoPushes_exec : ((exec Locked.step (fun _ x => x.Parentless) (Locked.init 1)
    twoPushes).any fun f => decide (.scheduled 1 7 ∈ f.base.log ∧
      (f.pc (.client 1)).held = some (.push (.globalQueue 0) 8))) = true := by decide

theorem locked_refines_twoPushes : ∃ (f : Locked) (tr' : List (State × Action)) (s : State),
    (f.pc (.client 1)).held = some (.push (.globalQueue 0) 8) ∧ .scheduled 1 7 ∈ s.log ∧
      Run step (init 1) tr' s ∧ f.base = s.withStore f.base.store := by
  obtain ⟨tr, f, hrun, -, hpar, hf⟩ := exists_run_of_exec twoPushes_exec
  obtain ⟨hlog, hheld⟩ := of_decide_eq_true hf
  obtain ⟨tr', s, hrun', -, hbase, -⟩ := locked_refines hrun hpar
  exact ⟨f, tr', s, hheld, by rw [hbase] at hlog; exact hlog, hrun', hbase⟩

/-- Only its own actions move a thread on in its operation. -/
theorem locked_others (hs : Locked.step f x = some f') (ht : x.thread ≠ t) :
    f'.pc t = f.pc t := by
  have hne : ∀ {p}, Function.update f.pc x.thread p t = f.pc t :=
    fun {p} => Function.update_of_ne (Ne.symm ht) p f.pc
  cases hreq : f.base.request x with
  | none =>
      simp only [Locked.step, hreq] at hs
      obtain ⟨b, -, rfl⟩ := Option.map_eq_some_iff.mp hs
      rfl
  | some op =>
      cases hpc : f.pc x.thread with
      | idle | release =>
          simp only [Locked.step, hreq, hpc] at hs
          obtain rfl := Option.some.inj hs
          exact hne
      | acquire =>
          simp only [Locked.step, hreq, hpc] at hs
          split at hs
          · rw [Option.some.inj hs]
          · obtain rfl := Option.some.inj hs
            exact hne
      | _ =>
          simp only [Locked.step, hreq, hpc] at hs
          obtain ⟨⟨st, pc'⟩, -, rfl⟩ := Option.map_eq_some_iff.mp hs
          exact hne

/-- A thread that holds a flag: its actions bring it nearer to the clearing of the flag, -/
theorem Refines.nearer (h : Refines f s) (hsound : Sound s)
    (ht : (f.pc x.thread).held = some op) (hs : Locked.step f x = some f') :
    (f'.pc x.thread).held = none ∨ (f'.pc x.thread).remaining < (f.pc x.thread).remaining := by
  obtain ⟨y, hyx, hy⟩ := h.busy (Pc.op_of_held ht)
  cases hreq : s.request x with
  | none =>
      have hreq' : f.base.request x = none := (h.request x).trans hreq
      obtain ⟨place, hv, ho⟩ := hsound.accounted
      obtain ⟨c, hp⟩ := h.paired
      simp only [Locked.step, hreq'] at hs
      obtain ⟨b, hb, rfl⟩ := Option.map_eq_some_iff.mp hs
      obtain ⟨st₁, c₁, hstep, -⟩ := hp.step (h.free hp hv ho) hreq' hb
      rw [← h.base, hsound.callsInWork.request_none hyx hy hreq] at hstep
      cases hstep
  | some op' =>
      have hreq' : f.base.request x = some op' := (h.request x).trans hreq
      cases hpc : f.pc x.thread with
      | idle | acquire =>
          rw [hpc] at ht
          cases ht
      | release =>
          simp only [Locked.step, hreq', hpc] at hs
          obtain rfl := Option.some.inj hs
          exact Or.inl (by simp only [Function.update_self]; rfl)
      | _ =>
          simp only [Locked.step, hreq', hpc] at hs
          obtain ⟨⟨st, pc'⟩, hstmt, rfl⟩ := Option.map_eq_some_iff.mp hs
          right
          simp only [Function.update_self]
          exact statement_remaining hstmt

/-- and there is always a next one. -/
theorem Refines.next (h : Refines f s) (ht : (f.pc t).held = some op) :
    ∃ x : Action, x.thread = t ∧ x.Parentless ∧ (Locked.step f x).isSome := by
  obtain ⟨x, rfl, hx⟩ := h.busy (Pc.op_of_held ht)
  have hreq : f.base.request x = some op := (h.request x).trans hx
  obtain ⟨c, hp⟩ := h.paired
  refine ⟨x, rfl, ?_, ?_⟩
  · cases x with
    | schedule => cases hx
    | _ => trivial
  · by_cases hrel : ∃ r, f.pc x.thread = .release op r
    · obtain ⟨r, hr⟩ := hrel
      simp [Locked.step, hreq, hr]
    · have hstmt := hp.guarded.enabled ht fun r hr => hrel ⟨r, hr⟩
      cases hpc : f.pc x.thread with
      | idle | acquire =>
          rw [hpc] at ht
          cases ht
      | release op' r =>
          rw [hpc] at ht
          obtain rfl := Option.some.inj ht
          exact absurd ⟨r, hpc⟩ hrel
      | _ =>
          rw [hpc] at hstmt
          simp only [Locked.step, hreq, hpc, Option.isSome_map]
          exact hstmt

/-- While the thread `t` keeps its flag, less than `m` statements are left to it. -/
structure Closing (t : Tid) (m : Nat) (f : Locked) : Prop where
  refines : ∃ s, Refines f s ∧ Sound s
  remaining : (f.pc t).held ≠ none → (f.pc t).remaining < m

theorem Closing.step {m : Nat} (h : Closing t m f) (hx : x.Parentless)
    (ht : (f.pc t).held = some op) (hs : Locked.step f x = some f') :
    ∃ m', Closing t m' f' ∧ m' + (if x.thread = t then 1 else 0) ≤ m := by
  obtain ⟨s, hR, hsound⟩ := h.refines
  have hR' : ∃ s, Refines f' s ∧ Sound s := by
    rcases hR.step hsound hs with ⟨-, hR'⟩ | ⟨s', -, hs', hR'⟩
    · exact ⟨s, hR', hsound⟩
    · exact ⟨s', hR', hsound.step hx hs'⟩
  have hlt : (f.pc t).remaining < m := h.remaining (by rw [ht]; simp)
  by_cases hxt : x.thread = t
  · subst hxt
    refine ⟨m - 1, ⟨hR', fun hheld => ?_⟩, by rw [if_pos rfl]; omega⟩
    rcases hR.nearer hsound ht hs with hnone | hless
    · exact absurd hnone hheld
    · omega
  · refine ⟨m, ⟨hR', ?_⟩, by rw [if_neg hxt, Nat.add_zero]⟩
    rw [locked_others hs hxt]
    exact h.remaining

/-- **Critical sections.** In every state that such a run visits: a flag is set while one thread, and
no other, is inside the queue; this thread always has a next statement; and as long as it keeps
the flag, whatever the others do, it executes ten more statements at most, the clearing of the
flag among them. -/
theorem locked_sections (h : Run Locked.step (Locked.init n) tr f)
    (hx : ∀ p ∈ tr, p.2.Parentless) :
    (∀ q, f.flag q = true ↔ ∃ t op, (f.pc t).held = some op ∧ op.queue = q) ∧
      (∀ t t' op op', (f.pc t).held = some op → (f.pc t').held = some op' →
        op.queue = op'.queue → t = t') ∧
      ∀ t op, (f.pc t).held = some op →
        (∃ x : Action, x.thread = t ∧ x.Parentless ∧ (Locked.step f x).isSome) ∧
        ∀ tr' f', Run Locked.step f tr' f' → (∀ p ∈ tr', p.2.Parentless) →
          (∀ p ∈ tr', (p.1.pc t).held = some op) →
            tr'.countP (fun p => p.2.thread = t) ≤ 10 := by
  obtain ⟨-, s, -, -, hR, hsound⟩ := locked_simulated h hx
  obtain ⟨c, hp⟩ := hR.paired
  refine ⟨hp.guarded.holder, fun t t' op op' => hp.guarded.exclusive, fun t op ht =>
    ⟨hR.next ht, fun tr' f' hrun hpar hheld => ?_⟩⟩
  have hstart : Closing t 10 f := ⟨⟨s, hR, hsound⟩, fun _ => by
    cases f.pc t <;> simp [Pc.remaining]⟩
  obtain ⟨m, -, hle⟩ := hrun.countP_add_le (p := fun p => decide (p.2.thread = t))
    (M := fun g m => Closing t m g) (C := fun g x => x.Parentless ∧ (g.pc t).held = some op)
    hstart (fun hM hC hs => by simpa using hM.step hC.1 hC.2 hs)
    (fun p hp' => ⟨hpar p hp', hheld p hp'⟩)
  omega

theorem locked_sections_twoPushes : ∃ f : Locked, f.flag (.globalQueue 0) = true ∧
    ∃ x : Action, x.thread = .client 1 ∧ x.Parentless ∧ (Locked.step f x).isSome := by
  obtain ⟨tr, f, hrun, -, hpar, hf⟩ := exists_run_of_exec twoPushes_exec
  obtain ⟨-, hheld⟩ := of_decide_eq_true hf
  obtain ⟨hflag, -, hnext⟩ := locked_sections hrun hpar
  exact ⟨f, (hflag _).mpr ⟨_, _, hheld, rfl⟩, (hnext _ _ hheld).1⟩

end Runs

end Bop.JobSystem
