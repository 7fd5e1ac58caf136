import Bop.JobSystem.Frame

set_option autoImplicit false

/-! # The executions of a worker

Of all the steps of a worker, three concern the work it executes: the call of `m_Work()`, its
return, and the storing of its trace. `workerStep_executes` says so for the steps that are the
worker's own; all other steps start no work, end none, and touch no entry of `m_Traces`.
-/

namespace Bop.JobSystem

variable {s s' : State} {i : Nat}

/-- Where a worker is with the work it executes. -/
inductive Phase
  | between  -- no work was started, or its trace is stored
  | inside   -- the work was started
  | after    -- the work ended, its trace is not stored yet
  deriving DecidableEq

def Pc.phase : Pc → Phase
  | .running _ => .inside
  | .storeTrace _ => .after
  | _ => .between

/-- The event says that a work was started or that it ended. -/
def Event.executes : Event → Bool
  | .started _ _ _ | .finished _ => true
  | _ => false

/-- What a step of worker `i` means for the work it executes. -/
inductive Executes (s : State) (i : Nat) (s' : State) : Prop
  | executes {job : Addr} {v : Option Work} (hpc : (s.worker i).pc = .execute (some job))
      (hpc' : (s'.worker i).pc = .running job)
      (hl : s'.log = .started (s.jobs job).work i v :: s.log) (htr : s'.traces = s.traces)
      (hjobs : s'.jobs = s.jobs)
  | stores {job : Addr} (hpc : (s.worker i).pc = .storeTrace job)
      (hpc' : (s'.worker i).pc.phase = .between) (hl : s'.log = s.log)
      (htr : s'.traces = Function.update s.traces i (i :: s.traces i))
  | other (hpc : (s.worker i).pc.phase = .between) (hpc' : (s'.worker i).pc.phase = .between)
      (hne : ∀ job, (s.worker i).pc ≠ .execute (some job))
      (hl : ∃ es, s'.log = es ++ s.log ∧ ∀ e ∈ es, e.executes = false)
      (htr : s'.traces = s.traces)

theorem completionStep_log (c : Completion) (t : Tid) :
    (∃ es, (completionStep s t c).1.log = es ++ s.log ∧ ∀ e ∈ es, e.executes = false) ∧
      (completionStep s t c).1.traces = s.traces := by
  cases c with
  | fetchSub a callers =>
      cases callers with
      | nil => exact ⟨⟨[_], rfl, by simp [Event.executes]⟩, rfl⟩
      | cons b callers => exact ⟨⟨[_, _], rfl, by simp [Event.executes]⟩, rfl⟩
  | ascend a callers =>
      simp only [completionStep]
      cases (s.jobs a).parent with
      | some p => exact ⟨⟨[], rfl, by simp [Event.executes]⟩, rfl⟩
      | none => exact ⟨⟨[_], rfl, by simp [Event.executes]⟩, rfl⟩
  | recycle a callers =>
      obtain ⟨q, -, hrec⟩ := recycle_eq s t a
      have heq : (completionStep s t (.recycle a callers)).1 = recycle s t a := rfl
      rw [heq, hrec]
      exact ⟨⟨[.recycled (s.jobs a).work], rfl, by simp [Event.executes]⟩, rfl⟩

theorem handOver_log (a : Addr) (c : Option Addr) :
    (JobSystem.handOver s a c).log = s.log ∧ (JobSystem.handOver s a c).traces = s.traces := by
  unfold JobSystem.handOver
  split <;> exact ⟨rfl, rfl⟩

theorem workerStep_executes (hs : workerStep s i = some s') : Executes s i s' := by
  have hself : ∀ {w : Worker}, Function.update s.worker i w i = w :=
    fun {w} => Function.update_self i w s.worker
  -- the steps that go on at `w` and record `es`
  have hgo : ∀ {w : Worker} (es : List Event), s'.worker = Function.update s.worker i w →
      s'.log = es ++ s.log → s'.traces = s.traces → (∀ e ∈ es, e.executes = false) →
      (s.worker i).pc.phase = .between → w.pc.phase = .between →
      (∀ job, (s.worker i).pc ≠ .execute (some job)) → Executes s i s' := by
    intro w es hw hl htr hes hpc hpc' hne
    exact .other hpc (by rw [hw, hself, hpc']) hne ⟨es, hl, hes⟩ htr
  cases workerStep_move hs with
  | execute hpc =>
      exact .executes hpc (congrArg Worker.pc hself) rfl rfl rfl
  | storeTrace hpc =>
      exact .stores hpc (congrArg (fun w : Worker => w.pc.phase) hself) rfl rfl
  | spin hpc =>
      exact .other (by rw [hpc]; rfl) (by rw [hpc]; rfl) (by simp [hpc]) ⟨[], rfl, by simp⟩ rfl
  | @drain r a st hpc =>
      exact .other (by rw [hpc]; rfl) (by show (s.worker i).pc.phase = _; rw [hpc]; rfl)
        (by simp [hpc]) ⟨[.deallocated a], rfl, by simp [Event.executes]⟩ rfl
  | @handOver a o hpc =>
      have hw := (JobSystem.handOver_frame (s := s) (i := i) a o).2
      refine hgo (w := { (JobSystem.handOver s a o).worker i with
        pc := .complete (.fetchSub a []) o }) [] ?_ (handOver_log a o).1 (handOver_log a o).2 (by simp)
        (by rw [hpc]; rfl) rfl (by simp [hpc])
      show Function.update (JobSystem.handOver s a o).worker i _ = _
      rw [hw]
  | @complete c c' o s₁ hpc hc =>
      have hw := (completionStep_frame (s := s) (i := i) (t := .worker i) c).2
      obtain ⟨⟨es, hl, hes⟩, htr⟩ := completionStep_log (s := s) c (.worker i)
      rw [hc] at hw hl htr
      refine hgo (w := { s₁.worker i with pc := .complete c' o }) es ?_ hl htr hes
        (by rw [hpc]; rfl) rfl (by simp [hpc])
      show Function.update s₁.worker i _ = _
      rw [hw]
  | @completed c o s₁ hpc hc =>
      have hw := (completionStep_frame (s := s) (i := i) (t := .worker i) c).2
      obtain ⟨⟨es, hl, hes⟩, htr⟩ := completionStep_log (s := s) c (.worker i)
      rw [hc] at hw hl htr
      refine hgo (w := { s₁.worker i with pc := .execute o }) es ?_ hl htr hes
        (by rw [hpc]; rfl) rfl (by simp [hpc])
      show Function.update s₁.worker i _ = _
      rw [hw]
  | @drainClear r hpc =>
      refine hgo [.drained i r] rfl rfl rfl (by simp [Event.executes]) (by rw [hpc]; rfl) ?_ (by simp [hpc])
      cases r <;> rfl
  | countdown hpc =>
      refine hgo [] rfl rfl rfl (by simp) (by rw [hpc]; rfl) ?_ (by simp [hpc])
      show (if s.numThreads = 1 then Pc.saveTracelog else Pc.done).phase = _
      split <;> rfl
  | readContinuation hpc | saveTracelog hpc | setComplete hpc =>
      exact hgo [_] rfl rfl rfl (by simp [Event.executes]) (by rw [hpc]; rfl) rfl (by simp [hpc])
  | start hpc | arrive hpc | released hpc | stealInit hpc | stay hpc | leave hpc | noLocal hpc
  | popLocal hpc | popGlobal hpc | stealCount hpc | hasJob hpc | stealOn hpc | stealEnd hpc
  | stealNext hpc | stealPop hpc | noJob hpc | collect hpc | idle hpc | drained hpc =>
      exact hgo [] rfl rfl rfl (by simp) (by rw [hpc]; rfl) rfl (by simp [hpc])

end Bop.JobSystem
