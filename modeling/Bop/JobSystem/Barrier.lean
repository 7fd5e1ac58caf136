import Bop.JobSystem.Shutdown

set_option autoImplicit false

/-! # The start of the workers

Before it enters its loop a worker counts itself off in the static `remaining_workers`, and
waits until the counter is zero. The first one that gets there initializes the counter with
`m_NumThreads`.

`Assembling` says that the counter is the number of the workers that did not arrive yet. So no
worker goes on before all have arrived, and then all of them go on.
-/

namespace Bop.JobSystem

/-- Whether a worker has counted itself off in `remaining_workers`. -/
def Pc.arrived : Pc → Bool
  | .start | .arrive => false
  | _ => true

/-- Whether a worker is past the loop in which it waits for the others. -/
def Pc.entered : Pc → Bool
  | .start | .arrive | .spin => false
  | _ => true

/-- The workers that have not arrived. -/
def State.absent (s : State) : Finset Nat :=
  (Finset.range s.size).filter fun i => (s.worker i).pc.arrived = false

section Assembling

variable {s s' : State} {i : Nat} {t : Tid} {x : Action} {n : Nat} {tr : List (State × Action)}

/-! ## Who writes `remaining_workers` -/

theorem goto_worker {s₁ : State} {pc : Pc} (hw : s₁.worker = s.worker) :
    (s₁.goto i pc).worker = Function.update s.worker i { s.worker i with pc := pc } := by
  simp only [State.goto, hw]

theorem handOver_remaining (a : Addr) (c : Option Addr) :
    (handOver s a c).remainingWorkers = s.remainingWorkers := by
  unfold handOver
  split <;> rfl

theorem completionStep_remaining (c : Completion) :
    (completionStep s t c).1.remainingWorkers = s.remainingWorkers := by
  cases c with
  | fetchSub a callers => cases callers <;> rfl
  | ascend a callers =>
      simp only [completionStep]
      split <;> rfl
  | recycle a callers =>
      obtain ⟨q, -, hrec⟩ := recycle_eq s t a
      simp only [completionStep, hrec]
      rfl

theorem construct_remaining (parent : Option Addr) (threadIndex : Option Nat) (fresh : Addr) :
    (construct s t parent threadIndex fresh).1.remainingWorkers = s.remainingWorkers := by
  rcases construct_cases s t parent threadIndex fresh with ⟨a, st, -, hc⟩ | ⟨st, -, hc⟩ <;> rw [hc]

/-- Only the workers do. -/
theorem step_remaining (hx : ∀ i, x ≠ .work i) (hs : step s x = some s') :
    s'.remainingWorkers = s.remainingWorkers := by
  cases x with
  | schedule t parent threadIndex fresh =>
      obtain ⟨-, -, -, rfl⟩ := step_schedule hs
      exact construct_remaining (parent.map Prod.snd) threadIndex fresh
  | jobThen t of job threadIndex fresh =>
      obtain ⟨-, -, -, rfl⟩ := step_jobThen hs
      exact construct_remaining none threadIndex fresh
  | call t =>
      have hs' : callStep s t = some s' := hs
      cases callStep_move hs' <;> rfl
  | shutdown t =>
      obtain ⟨-, rfl⟩ := step_shutdown hs
      rfl
  | finish i =>
      obtain ⟨job, -, -, -, rfl⟩ := step_finish hs
      rfl
  | work i => exact absurd rfl (hx i)

/-! ## The counter -/

theorem mem_absent : i ∈ s.absent ↔ i < s.size ∧ (s.worker i).pc.arrived = false := by
  simp [State.absent]

theorem Pc.arrived_of_entered {pc : Pc} (h : pc.entered = true) : pc.arrived = true := by
  cases pc <;> first | rfl | cases h

theorem Resource.next_entered (r : Resource) : r.next.entered = true := by cases r <;> rfl

/-- No work is started before all workers have arrived. -/
def State.NoneStarted (s : State) : Prop := ∀ w i v, .started w i v ∉ s.log

/-- **The counter is the number of the workers that are missing**, and nobody went on without
them. -/
structure Assembling (s : State) : Prop where
  unset : s.remainingWorkers = none → ∀ i < s.size, (s.worker i).pc = .start
  count : ∀ r ∈ s.remainingWorkers, r = s.absent.card
  entered : ∀ i < s.size, (s.worker i).pc.entered = true → s.absent = ∅
  noneStarted : s.absent.Nonempty → s.NoneStarted

theorem assembling_init (n : Nat) : Assembling (init n) where
  unset _ _ _ := rfl
  count _ h := by cases h
  entered _ _ h := by cases h
  noneStarted _ w i v h := by cases h

/-- All workers are there when `remaining_workers` is zero. -/
theorem Assembling.absent_eq (h : Assembling s) (hi : i < s.size)
    (hpc : (s.worker i).pc = .spin) (hr : ¬ s.remainingWorkers.getD 0 > 0) : s.absent = ∅ := by
  cases hrem : s.remainingWorkers with
  | none =>
      have hstart := h.unset hrem i hi
      rw [hpc] at hstart
      cases hstart
  | some r =>
      have hzero : r = 0 := by
        rw [hrem] at hr
        exact Nat.eq_zero_of_not_pos hr
      rw [← Finset.card_eq_zero, ← h.count r (by simp [hrem]), hzero]

/-- Nobody waits when all workers are there. -/
theorem Assembling.remaining_eq (h : Assembling s) (hempty : s.absent = ∅) :
    s.remainingWorkers.getD 0 = 0 := by
  cases hrem : s.remainingWorkers with
  | none => rfl
  | some r => rw [Option.getD_some, h.count r (by simp [hrem]), hempty, Finset.card_empty]

/-- A worker that has not arrived keeps the counter above zero. -/
theorem Assembling.counter_pos (h : Assembling s) (hi : i ∈ s.absent)
    (hpc : (s.worker i).pc = .arrive) :
    ∃ r, s.remainingWorkers = some r ∧ r = s.absent.card ∧ 0 < r := by
  cases hrem : s.remainingWorkers with
  | none =>
      have hstart := h.unset hrem i (mem_absent.mp hi).1
      rw [hpc] at hstart
      cases hstart
  | some r =>
      have hr : r = s.absent.card := h.count r (by simp [hrem])
      exact ⟨r, rfl, hr, hr ▸ Finset.card_pos.mpr ⟨i, hi⟩⟩

theorem absent_congr (hsize : s'.size = s.size)
    (h : ∀ j, (s'.worker j).pc.arrived = (s.worker j).pc.arrived) : s'.absent = s.absent := by
  ext j
  rw [mem_absent, mem_absent, hsize, h]

/-- **The steps of the others.** Who has arrived stays there, a worker goes on only if all are
there, and works are started only by workers that went on. -/
theorem Assembling.keep (h : Assembling s) (hsize : s'.size = s.size)
    (hrem : s'.remainingWorkers = s.remainingWorkers)
    (harr : ∀ j, (s'.worker j).pc.arrived = (s.worker j).pc.arrived)
    (hstart : ∀ j, (s.worker j).pc = .start → (s'.worker j).pc = .start)
    (hent : ∀ j < s.size, (s'.worker j).pc.entered = true →
      (s.worker j).pc.entered = true ∨ s.absent = ∅)
    (hlog : s.absent.Nonempty → s.NoneStarted → s'.NoneStarted) : Assembling s' := by
  have habs : s'.absent = s.absent := absent_congr hsize harr
  constructor
  case unset =>
    intro hr j hj
    rw [hrem] at hr
    rw [hsize] at hj
    exact hstart j (h.unset hr j hj)
  case count =>
    rw [hrem, habs]
    exact h.count
  case entered =>
    intro j hj he
    rw [hsize] at hj
    rw [habs]
    exact (hent j hj he).elim (h.entered j hj) id
  case noneStarted =>
    rw [habs]
    exact fun hne => hlog hne (h.noneStarted hne)

/-- The first worker initializes the counter. -/
theorem Assembling.start (h : Assembling s) (hw : Winding s) (hi : i < s.size)
    (hpc : (s.worker i).pc = .start) :
    Assembling { s.goto i .arrive with
      remainingWorkers := some (s.remainingWorkers.getD s.numThreads) } := by
  set s' : State := { s.goto i .arrive with
    remainingWorkers := some (s.remainingWorkers.getD s.numThreads) } with hs'
  have hother : ∀ j ≠ i, s'.worker j = s.worker j := fun j hj => Function.update_of_ne hj ..
  have hself : (s'.worker i).pc = .arrive := goto_pc s i .arrive
  have habs : s'.absent = s.absent := absent_congr rfl fun j => by
    by_cases hj : j = i
    · rw [hj, hself, hpc]
      rfl
    · rw [hother j hj]
  have hmem : i ∈ s.absent := mem_absent.mpr ⟨hi, by rw [hpc]; rfl⟩
  constructor
  case unset =>
    intro hr
    cases hr
  case count =>
    intro r hr
    obtain rfl : s.remainingWorkers.getD s.numThreads = r := Option.some.inj hr
    rw [habs]
    cases hrem : s.remainingWorkers with
    | some r => exact h.count r (by simp [hrem])
    | none =>
        -- all workers are at the start, so none has counted itself off in `m_NumThreads`
        have hall := h.unset hrem
        have hact : s.active = s.absent := by
          ext j
          rw [mem_active, mem_absent]
          refine and_congr_right fun hj => ?_
          rw [hall j hj]
          exact iff_of_true rfl rfl
        rw [Option.getD_none, hw.count, hact]
  case entered =>
    intro j hj he
    by_cases hji : j = i
    · rw [hji, hself] at he
      cases he
    · rw [hother j hji] at he
      rw [habs]
      exact h.entered j hj he
  case noneStarted => exact fun hne => h.noneStarted (habs ▸ hne)

/-- A worker counts itself off. -/
theorem Assembling.arrive (h : Assembling s) (hlt : s.size < 2 ^ 32) (hi : i < s.size)
    (hpc : (s.worker i).pc = .arrive) :
    Assembling { s.goto i .spin with remainingWorkers := s.remainingWorkers.map pred32 } := by
  set s' : State := { s.goto i .spin with
    remainingWorkers := s.remainingWorkers.map pred32 } with hs'
  have hother : ∀ j ≠ i, s'.worker j = s.worker j := fun j hj => Function.update_of_ne hj ..
  have hself : (s'.worker i).pc = .spin := goto_pc s i .spin
  have hmem : i ∈ s.absent := mem_absent.mpr ⟨hi, by rw [hpc]; rfl⟩
  have habs : s'.absent = s.absent.erase i := by
    ext j
    rw [Finset.mem_erase, mem_absent, mem_absent]
    by_cases hji : j = i
    · simp [hji, hself, Pc.arrived]
    · rw [hother j hji]
      simp [hji, hs', State.goto]
  obtain ⟨r, hr, hcard, hpos⟩ := h.counter_pos hmem hpc
  have hle : s.absent.card ≤ s.size := by
    calc s.absent.card
        ≤ (Finset.range s.size).card := Finset.card_filter_le ..
      _ = s.size := Finset.card_range s.size
  constructor
  case unset =>
    intro hnone
    rw [hs', hr] at hnone
    cases hnone
  case count =>
    intro r' hr'
    have hr'' : pred32 r = r' := by
      have hmap : r' ∈ s.remainingWorkers.map pred32 := hr'
      rw [hr] at hmap
      exact Option.some.inj hmap
    rw [← hr'', pred32_of_pos hpos (by omega), habs, Finset.card_erase_of_mem hmem, hcard]
  case entered =>
    intro j hj he
    by_cases hji : j = i
    · rw [hji, hself] at he
      cases he
    · rw [hother j hji] at he
      rw [h.entered j hj he] at hmem
      cases hmem
  case noneStarted =>
    exact fun _ => h.noneStarted ⟨i, hmem⟩

/-- The steps of worker `i` past its arrival. -/
theorem Assembling.go (h : Assembling s) (hi : i < s.size) (hsize : s'.size = s.size)
    (hrem : s'.remainingWorkers = s.remainingWorkers)
    (hother : ∀ j ≠ i, s'.worker j = s.worker j)
    (harr : (s.worker i).pc.arrived = true) (harr' : (s'.worker i).pc.arrived = true)
    (hent : (s'.worker i).pc.entered = true → (s.worker i).pc.entered = true ∨ s.absent = ∅)
    (hlog : s.NoneStarted → s'.NoneStarted ∨ (s.worker i).pc.entered = true) :
    Assembling s' := by
  refine h.keep hsize hrem (fun j => ?_) (fun j hj => ?_) (fun j _ hej => ?_) fun hne hno => ?_
  · by_cases hji : j = i
    · rw [hji, harr, harr']
    · rw [hother j hji]
  · have hji : j ≠ i := fun hji => by
      rw [← hji, hj] at harr
      cases harr
    rwa [hother j hji]
  · by_cases hji : j = i
    · subst hji
      exact hent hej
    · rw [hother j hji] at hej
      exact Or.inl hej
  · refine (hlog hno).elim id fun hin => ?_
    rw [h.entered i hi hin] at hne
    exact absurd hne Finset.not_nonempty_empty

theorem Assembling.workerStep (h : Assembling s) (hw : Winding s) (hlt : s.size < 2 ^ 32)
    (hi : i < s.size) (hs : workerStep s i = some s') : Assembling s' := by
  have hf := workerStep_frame hs
  -- a step past the barrier that goes on at `w`
  have hgo : ∀ {w : Worker}, s'.worker = Function.update s.worker i w →
      s'.remainingWorkers = s.remainingWorkers → (s.worker i).pc.entered = true →
      w.pc.entered = true → Assembling s' := by
    intro w hw' hrem hin hin'
    have hself : s'.worker i = w := by rw [hw', Function.update_self]
    exact h.go hi hf.size hrem hf.worker (Pc.arrived_of_entered hin)
      (Pc.arrived_of_entered (hself ▸ hin')) (fun _ => Or.inl hin) (fun _ => Or.inr hin)
  cases workerStep_move hs with
  | start hpc => exact h.start hw hi hpc
  | arrive hpc => exact h.arrive hlt hi hpc
  | spin => exact h
  | released hpc hr =>
      have hpc' : ((s.goto i .stealInit).worker i).pc = .stealInit := goto_pc s i .stealInit
      exact h.go hi rfl rfl hf.worker (by rw [hpc]; rfl) (by rw [hpc']; rfl)
        (fun _ => Or.inr (h.absent_eq hi hpc hr)) Or.inl
  | @handOver a o hpc =>
      exact hgo (goto_worker (handOver_frame (i := i) a o).2) (handOver_remaining a o)
        (by rw [hpc]; rfl) rfl
  | @complete c c' o s₁ hpc hc =>
      have hfr := (completionStep_frame (s := s) (i := i) (t := .worker i) c).2
      have hrem := completionStep_remaining (s := s) (t := .worker i) c
      rw [hc] at hfr hrem
      exact hgo (goto_worker hfr) hrem (by rw [hpc]; rfl) rfl
  | @completed c o s₁ hpc hc =>
      have hfr := (completionStep_frame (s := s) (i := i) (t := .worker i) c).2
      have hrem := completionStep_remaining (s := s) (t := .worker i) c
      rw [hc] at hfr hrem
      exact hgo (goto_worker hfr) hrem (by rw [hpc]; rfl) rfl
  | drain hpc =>
      have hin : (s.worker i).pc.entered = true := by rw [hpc]; rfl
      exact h.go hi rfl rfl hf.worker (Pc.arrived_of_entered hin) (Pc.arrived_of_entered hin)
        (fun _ => Or.inl hin) (fun _ => Or.inr hin)
  | drainClear hpc => exact hgo rfl rfl (by rw [hpc]; rfl) (Resource.next_entered _)
  | countdown hpc =>
      refine hgo rfl rfl (by rw [hpc]; rfl) ?_
      show (if s.numThreads = 1 then Pc.saveTracelog else .done).entered = true
      split <;> rfl
  | stealInit hpc | stay hpc | leave hpc | noLocal hpc | popLocal hpc | popGlobal hpc
  | stealCount hpc | hasJob hpc | stealOn hpc | stealEnd hpc | stealNext hpc | stealPop hpc
  | noJob hpc | execute hpc | storeTrace hpc | readContinuation hpc | collect hpc | idle hpc
  | drained hpc | saveTracelog hpc | setComplete hpc => exact hgo rfl rfl (by rw [hpc]; rfl) rfl

/-- **One step.** -/
theorem Assembling.step (h : Assembling s) (hw : Winding s) (hlt : s.size < 2 ^ 32)
    (hs : step s x = some s') : Assembling s' := by
  rcases step_cases hs with ⟨hx, hf⟩ | ⟨i, job, rfl, hpc, -, hi, rfl⟩ | ⟨i, rfl, hi, hwork⟩
  · have hrem := step_remaining (fun i => (hx i).1) hs
    refine h.keep hf.size hrem (fun j => by rw [hf.worker]) (fun j => by rw [hf.worker]; exact id)
      (fun j _ he => Or.inl (hf.worker ▸ he)) fun _ hno w i v hmem => ?_
    obtain ⟨es, hes, hcall⟩ := hf.log
    rw [hes] at hmem
    rcases List.mem_append.mp hmem with he | he
    · cases hcall _ he
    · exact hno w i v he
  · have hin : (s.worker i).pc.entered = true := by rw [hpc]; rfl
    have hpc' : (((s.goto i (.storeTrace job)).record
        (.finished (s.jobs job).work)).worker i).pc = .storeTrace job := goto_pc s i _
    exact h.go hi rfl rfl (fun j hj => Function.update_of_ne hj ..) (Pc.arrived_of_entered hin)
      (by rw [hpc']; rfl) (fun _ => Or.inl hin) (fun _ => Or.inr hin)
  · exact h.workerStep hw hlt hi hwork

theorem run_assembling (h : Transition.Run step (init n) tr s) (hn : 0 < n) (hlt : n < 2 ^ 32) :
    s.size = n ∧ Assembling s := by
  have hboth := h.invariant (I := fun s => s.size = n ∧ Winding s ∧ Assembling s)
    (C := fun _ _ => True) ⟨rfl, winding_init hn, assembling_init n⟩
    (fun {s x s'} hI _ hs => ⟨(step_size hs).trans hI.1, hI.2.1.step (hI.1 ▸ hlt) hs,
      hI.2.2.step hI.2.1 (hI.1 ▸ hlt) hs⟩) (fun _ _ => trivial)
  exact ⟨hboth.1, hboth.2.2⟩

/-- **The start barrier.** Take a run of `n` workers, whatever the threads schedule and whenever
they call `shutdown`. As soon as the counter `remaining_workers` is initialized, it is the number
of the workers that have not arrived. While one is missing, none is past the waiting loop and no
work was started. When all are there, each worker in the waiting loop leaves it with its next
step. -/
theorem start_barrier (hn : 0 < n) (hlt : n < 2 ^ 32) (h : Transition.Run step (init n) tr s) :
    (∀ r ∈ s.remainingWorkers, r = s.absent.card) ∧
      (∀ j < n, (s.worker j).pc.arrived = false →
        (∀ i < n, (s.worker i).pc.entered = false) ∧ s.NoneStarted) ∧
      ((∀ j < n, (s.worker j).pc.arrived = true) → ∀ i < n, (s.worker i).pc = .spin →
        step s (.work i) = some (s.goto i .stealInit)) := by
  obtain ⟨hsize, hass⟩ := run_assembling h hn hlt
  refine ⟨hass.count, fun j hj harr => ?_, fun hall i hi hpc => ?_⟩
  · have hmem : j ∈ s.absent := mem_absent.mpr ⟨hsize.symm ▸ hj, harr⟩
    refine ⟨fun i hi => ?_, hass.noneStarted ⟨j, hmem⟩⟩
    by_contra hin
    rw [hass.entered i (hsize.symm ▸ hi) (Bool.not_eq_false _ ▸ hin)] at hmem
    cases hmem
  · have hempty : s.absent = ∅ := by
      refine Finset.eq_empty_of_forall_notMem fun j hj => ?_
      obtain ⟨hj, harr⟩ := mem_absent.mp hj
      rw [hall j (hsize ▸ hj)] at harr
      cases harr
    have hi' : i < s.size := hsize.symm ▸ hi
    simp [JobSystem.step, workerStep, hi', hpc, hass.remaining_eq hempty]

/-- Two workers: the first one waits until the second one arrives. -/
theorem start_barrier_two : ∃ tr s, Transition.Run step (init 2) tr s ∧
    s.remainingWorkers = some 1 ∧ (s.worker 0).pc = .spin ∧ s.absent.card = 1 ∧
      (s.worker 1).pc.entered = false := by
  have hexec : ((Transition.exec step (fun _ _ => True) (init 2)
      [.work 0, .work 1, .work 0, .work 0]).any fun s => decide (s.remainingWorkers = some 1 ∧
        (s.worker 0).pc = .spin ∧ (s.worker 1).pc.arrived = false)) = true := by decide
  obtain ⟨tr, s, hrun, -, -, hs⟩ := Transition.exists_run_of_exec hexec
  obtain ⟨hrem, hpc, harr⟩ := of_decide_eq_true hs
  obtain ⟨hcount, hwait, -⟩ := start_barrier (by decide) (by decide) hrun
  exact ⟨tr, s, hrun, hrem, hpc, (hcount 1 hrem).symm, (hwait 1 (by decide) harr).1 1 (by decide)⟩

end Assembling

end Bop.JobSystem
