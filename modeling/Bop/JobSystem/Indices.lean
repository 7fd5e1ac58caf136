import Bop.JobSystem.Shutdown

set_option autoImplicit false

/-! # The indices into the arrays

`m_GlobalQueues`, `m_LocalQueues`, `m_Mutexes` and `m_Traces` have as many elements as there
were workers at the initialization, while `m_NumThreads`, to which the threads compare their
indices, counts down to zero during the shutdown. A thread reads it several times for one index,
and the thread-local indices outlive the countdown.

`State.indices` are the elements that a step uses, and `step_indices` says that it changes no
other ones. All of them are in range (`indices_in_range`), because what a thread compares its
index to is never more than the length: an index is wrapped to zero too early, never too late.
-/

namespace Bop.JobSystem

/-- The arrays of the job system, with one element for each worker. -/
inductive JobArray
  | globalQueues
  | localQueues
  | mutexes
  | traces
  deriving DecidableEq

/-- The array that a worker deallocates, if the resource is not thread-local. -/
def Resource.array : Resource → Option JobArray
  | .globalQueue => some .globalQueues
  | .localQueue => some .localQueues
  | .recyclingBin | .garbageBin => none

/-- The array elements that a worker uses in its next step. -/
def Worker.indices (w : Worker) (i : Nat) : List (JobArray × Nat) :=
  match w.pc with
  | .stealInit => [(.mutexes, i)]          -- std::unique_lock lock(m_Mutexes[l_ThreadIndex]);
  | .popLocal => [(.localQueues, i)]       -- m_LocalQueues[l_ThreadIndex].pop()
  | .popGlobal => [(.globalQueues, i)]     -- m_GlobalQueues[l_ThreadIndex].pop()
  | .stealPop _ => [(.globalQueues, w.stealFrom)] -- m_GlobalQueues[steal_from].pop()
  | .storeTrace _ => [(.traces, i)]        -- m_Traces[executing_thread_index].push_back(..)
  | .drain r | .drainClear r => r.array.toList.map fun a => (a, i) -- deallocate_job_queue(..)
  | _ => []

/-- The array elements that a thread uses in the next step of its call. -/
def State.callIndices (s : State) (t : Tid) : List (JobArray × Nat) :=
  match s.call t with
  | .pushGlobal _ => [(.globalQueues, s.tidx t)]         -- m_GlobalQueues[tidx].push(work);
  | .pushLocal _ => [(.localQueues, t.threadIndex)] -- m_LocalQueues[l_ThreadIndex].push(work);
  | _ => []

/-- The array elements that a step uses. -/
def State.indices (s : State) : Action → List (JobArray × Nat)
  | .call t => s.callIndices t
  | .work i => (s.worker i).indices i
  | .schedule _ _ _ _ | .jobThen _ _ _ _ _ | .shutdown _ | .finish _ => []

/-- **The step stays in arrays of `n` elements**, and does not divide by zero. -/
structure State.InRange (s : State) (n : Nat) (x : Action) : Prop where
  index : ∀ p ∈ s.indices x, p.2 < n
  divisor : ∀ {i}, x = .work i → (s.worker i).pc = .stealInit → s.numThreads ≠ 0

section Indices

variable {s s' : State} {i n : Nat} {t : Tid} {x : Action} {tr : List (State × Action)}

/-! ## A step uses no other elements -/

/-- The elements of the arrays that are not in the list stay as they are. -/
structure Leaves (s : State) (l : List (JobArray × Nat)) (s' : State) : Prop where
  globalQueues : ∀ k, (.globalQueues, k) ∉ l →
    s'.store.queue (.globalQueue k) = s.store.queue (.globalQueue k)
  localQueues : ∀ k, (.localQueues, k) ∉ l →
    s'.store.queue (.localQueue k) = s.store.queue (.localQueue k)
  traces : ∀ k, (.traces, k) ∉ l → s'.traces k = s.traces k

variable {l : List (JobArray × Nat)}

theorem Leaves.of_eq (hstore : s'.store.queue = s.store.queue) (htraces : s'.traces = s.traces) :
    Leaves s l s' where
  globalQueues k _ := by rw [hstore]
  localQueues k _ := by rw [hstore]
  traces k _ := by rw [htraces]

/-- One queue is used. -/
theorem Leaves.of_queue {q : QueueId} (hq : ∀ q' ≠ q, s'.store.queue q' = s.store.queue q')
    (hglobal : ∀ k, q = .globalQueue k → (.globalQueues, k) ∈ l)
    (hlocal : ∀ k, q = .localQueue k → (.localQueues, k) ∈ l)
    (htraces : s'.traces = s.traces) : Leaves s l s' where
  globalQueues k hk := hq _ fun hqk => hk (hglobal k hqk.symm)
  localQueues k hk := hq _ fun hqk => hk (hlocal k hqk.symm)
  traces k _ := by rw [htraces]

theorem Leaves.goto {pc : Pc} (h : Leaves s l s') : Leaves s l (s'.goto i pc) := { h with }

theorem construct_leaves (parent : Option Addr) (threadIndex : Option Nat) (fresh : Addr) :
    Leaves s l (construct s t parent threadIndex fresh).1 := by
  have hframe : ∀ {q : QueueId}, q ≠ .recyclingBin t →
      (s.store.pop (.recyclingBin t)).2.queue q = s.store.queue q :=
    fun hq => Store.pop_queue_of_ne hq
  rcases construct_cases s t parent threadIndex fresh with ⟨a, st, hpop, hc⟩ | ⟨st, hpop, hc⟩
  · rw [hpop] at hframe
    rw [hc]
    exact .of_queue (fun q hq => hframe hq) (by simp) (by simp) rfl
  · rw [hpop] at hframe
    rw [hc]
    exact .of_queue (fun q hq => hframe hq) (by simp) (by simp) rfl

theorem construct_tidx (parent : Option Addr) (threadIndex : Option Nat) (fresh : Addr) :
    (construct s t parent threadIndex fresh).1.tidx = s.tidx := by
  rcases construct_cases s t parent threadIndex fresh with ⟨a, st, -, hc⟩ | ⟨st, -, hc⟩
  · rw [hc]
  · rw [hc]

theorem callStep_leaves (hs : callStep s t = some s') : Leaves s (s.callIndices t) s' := by
  cases callStep_move hs with
  | shared | own | balance | attach | reread => exact .of_eq rfl rfl
  | pushGlobal hc =>
      refine .of_queue (q := .globalQueue (s.tidx t)) (fun q hq => Store.push_queue_of_ne hq) ?_
        (by simp) rfl
      rintro k hk
      obtain rfl := QueueId.globalQueue.inj hk
      simp [State.callIndices, hc]
  | pushLocal hc =>
      refine .of_queue (q := .localQueue t.threadIndex) (fun q hq => Store.push_queue_of_ne hq)
        (by simp) ?_ rfl
      rintro k hk
      obtain rfl := QueueId.localQueue.inj hk
      simp [State.callIndices, hc]

theorem completionStep_leaves (c : Completion) : Leaves s l (completionStep s t c).1 := by
  cases c with
  | fetchSub a callers =>
      cases callers with
      | nil => exact .of_eq rfl rfl
      | cons b callers => exact .of_eq rfl rfl
  | ascend a callers =>
      simp only [completionStep]
      split
      · exact .of_eq rfl rfl
      · exact .of_eq rfl rfl
  | recycle a callers =>
      obtain ⟨q, hq, hrec⟩ := recycle_eq s t a
      simp only [completionStep, hrec]
      refine .of_queue (q := q) (fun q' hq' => Store.push_queue_of_ne hq') ?_ ?_ rfl
      · rcases hq with rfl | rfl <;> simp
      · rcases hq with rfl | rfl <;> simp

theorem handOver_leaves (a : Addr) (c : Option Addr) : Leaves s l (handOver s a c) := by
  unfold handOver
  split
  · exact .of_eq rfl rfl
  · exact .of_eq rfl rfl

/-- A worker that deallocates a resource uses its element of the array. -/
theorem Leaves.of_resource {r : Resource}
    (hq : ∀ q ≠ r.queue i, s'.store.queue q = s.store.queue q) (htraces : s'.traces = s.traces) :
    Leaves s (r.array.toList.map fun a => (a, i)) s' := by
  cases r with
  | globalQueue | localQueue =>
      refine .of_queue hq (fun k hk => ?_) (fun k hk => ?_) htraces
      · cases hk <;> simp [Resource.array]
      · cases hk <;> simp [Resource.array]
  | recyclingBin | garbageBin =>
      exact .of_queue hq (by simp [Resource.queue]) (by simp [Resource.queue]) htraces

theorem workerStep_leaves (hs : workerStep s i = some s') :
    Leaves s ((s.worker i).indices i) s' := by
  -- a pop leaves the other queues as they are
  have hframe : ∀ {q o st}, s.store.pop q = (o, st) → ∀ q' ≠ q,
      st.queue q' = s.store.queue q' := by
    intro q o st hpop q' hq'
    rw [show st = (s.store.pop q).2 by rw [hpop]]
    exact Store.pop_queue_of_ne hq'
  cases workerStep_move hs with
  | noLocal hpc hpop | popLocal hpc hpop =>
      refine .of_queue (q := .localQueue i) (hframe hpop) (by simp) (fun k hk => ?_) rfl
      obtain rfl := QueueId.localQueue.inj hk
      simp [Worker.indices, hpc]
  | popGlobal hpc hpop =>
      refine .of_queue (q := .globalQueue i) (hframe hpop) (fun k hk => ?_) (by simp) rfl
      obtain rfl := QueueId.globalQueue.inj hk
      simp [Worker.indices, hpc]
  | stealPop hpc hpop =>
      refine .of_queue (q := .globalQueue (s.worker i).stealFrom) (hframe hpop)
        (fun k hk => ?_) (by simp) rfl
      obtain rfl := QueueId.globalQueue.inj hk
      simp [Worker.indices, hpc]
  | storeTrace hpc =>
      refine ⟨fun _ _ => rfl, fun _ _ => rfl, fun k hk => ?_⟩
      have hki : k ≠ i := by
        rintro rfl
        exact hk (by simp [Worker.indices, hpc])
      exact Function.update_of_ne hki ..
  | handOver => exact (handOver_leaves _ _).goto
  | @complete c c' o s₁ hpc hc | @completed c o s₁ hpc hc =>
      have hleaves : Leaves s ((s.worker i).indices i) (completionStep s (.worker i) c).1 :=
        completionStep_leaves c
      rw [hc] at hleaves
      exact hleaves.goto
  | collect =>
      exact .of_queue (q := .garbageBin (.worker i)) (fun q hq => Store.clear_queue_of_ne hq)
        (by simp) (by simp) rfl
  | drain hpc hpop | drained hpc hpop =>
      simp only [Worker.indices, hpc]
      exact .of_resource (hframe hpop) rfl
  | drainClear hpc =>
      simp only [Worker.indices, hpc]
      exact .of_resource (fun q hq => Store.clear_queue_of_ne hq) rfl
  | _ => exact .of_eq rfl rfl

/-- **A step uses its elements of the arrays only.** -/
theorem step_indices (hs : step s x = some s') : Leaves s (s.indices x) s' := by
  cases x with
  | schedule t parent ti fresh =>
      obtain ⟨-, -, -, rfl⟩ := step_schedule hs
      exact { construct_leaves (parent.map Prod.snd) ti fresh with }
  | jobThen t of job ti fresh =>
      obtain ⟨-, -, -, rfl⟩ := step_jobThen hs
      exact { construct_leaves none ti fresh with }
  | call t => exact callStep_leaves hs
  | shutdown t =>
      obtain ⟨-, rfl⟩ := step_shutdown hs
      exact .of_eq rfl rfl
  | finish i =>
      obtain ⟨job, -, -, -, rfl⟩ := step_finish hs
      exact .of_eq rfl rfl
  | work i => exact workerStep_leaves (step_work hs).2

/-! ## The elements are in range -/

/-- The incremented index, wrapped to zero unless it is less than the current `m_NumThreads`. -/
theorem wrap_lt {m k : Nat} (hn : 0 < n) (hm : m ≤ n) : (if k ≥ m then 0 else k) < n := by
  split
  case isTrue => exact hn
  case isFalse hk => omega

/-- `schedule_work` wraps the thread-local `tidx` that it incremented; nothing else changes it. -/
theorem step_tidx (hn : 0 < n) (hm : s.numThreads ≤ n) (h : ∀ t, s.tidx t < n)
    (hs : step s x = some s') : ∀ t, s'.tidx t < n := by
  have hsame : ∀ {s₁ : State}, s₁.tidx = s.tidx → ∀ t, s₁.tidx t < n := by
    intro s₁ hs₁
    rw [hs₁]
    exact h
  cases x with
  | schedule t parent ti fresh =>
      obtain ⟨-, -, -, rfl⟩ := step_schedule hs
      exact hsame (construct_tidx (parent.map Prod.snd) ti fresh)
  | jobThen t of job ti fresh =>
      obtain ⟨-, -, -, rfl⟩ := step_jobThen hs
      exact hsame (construct_tidx none ti fresh)
  | call t =>
      have hs' : callStep s t = some s' := hs
      cases callStep_move hs' with
      | balance =>
          intro u
          show Function.update s.tidx t _ u < n
          by_cases hu : u = t
          · rw [hu, Function.update_self]
            exact wrap_lt hn hm
          · rw [Function.update_of_ne hu]
            exact h u
      | shared | own | pushGlobal | pushLocal | attach | reread => exact h
  | shutdown t =>
      obtain ⟨-, rfl⟩ := step_shutdown hs
      exact h
  | finish i =>
      obtain ⟨job, -, -, -, rfl⟩ := step_finish hs
      exact h
  | work i => exact hsame (workerStep_frame (step_work hs).2).tidx

theorem goto_stealFrom (s : State) (i : Nat) (pc : Pc) :
    ((s.goto i pc).worker i).stealFrom = (s.worker i).stealFrom := by
  show (Function.update s.worker i _ i).stealFrom = _
  rw [Function.update_self]

/-- A worker's `steal_from` is set by the modulo and wrapped when it is incremented. -/
theorem workerStep_stealFrom (hs : workerStep s i = some s') :
    (s'.worker i).stealFrom = (s.worker i).stealFrom ∨
      ((s.worker i).pc = .stealInit ∧ (s'.worker i).stealFrom = (i + 1) % s.numThreads) ∨
      ∃ k, (s'.worker i).stealFrom = if k ≥ s.numThreads then 0 else k := by
  have hself : ∀ {w : Worker} {k : Nat}, s'.worker = Function.update s.worker i w →
      w.stealFrom = k → (s'.worker i).stealFrom = k := by
    intro w k hw hk
    rw [hw, Function.update_self, hk]
  cases workerStep_move hs with
  | stealInit hpc => exact Or.inr (Or.inl ⟨hpc, hself rfl rfl⟩)
  | stealNext => exact Or.inr (Or.inr ⟨succ32 (s.worker i).stealFrom, hself rfl rfl⟩)
  | spin | drain => exact Or.inl rfl
  | handOver =>
      refine Or.inl ?_
      rw [goto_stealFrom, (handOver_frame (i := i) _ _).2]
  | @complete c c' o s₁ hpc hc | @completed c o s₁ hpc hc =>
      have hw := (completionStep_frame (s := s) (i := i) (t := .worker i) c).2
      rw [hc] at hw
      refine Or.inl ?_
      rw [goto_stealFrom, hw]
  | _ => exact Or.inl (hself rfl rfl)

theorem step_stealFrom (hn : 0 < n) (hm : s.numThreads ≤ n)
    (hdiv : ∀ i < s.size, (s.worker i).pc = .stealInit → 0 < s.numThreads)
    (h : ∀ i, (s.worker i).stealFrom < n) (hs : step s x = some s') :
    ∀ i, (s'.worker i).stealFrom < n := by
  rcases step_cases hs with ⟨-, hf⟩ | ⟨j, job, -, -, -, -, rfl⟩ | ⟨j, -, hj, hw⟩
  · rw [hf.worker]
    exact h
  · intro i
    show (Function.update s.worker j _ i).stealFrom < n
    by_cases hij : i = j
    · rw [hij, Function.update_self]
      exact h j
    · rw [Function.update_of_ne hij]
      exact h i
  · intro i
    by_cases hij : i = j
    · subst hij
      rcases workerStep_stealFrom hw with heq | ⟨hpc, heq⟩ | ⟨k, heq⟩
      · rw [heq]
        exact h i
      · calc (s'.worker i).stealFrom
            = (i + 1) % s.numThreads := heq
          _ < s.numThreads := Nat.mod_lt _ (hdiv i hj hpc)
          _ ≤ n := hm
      · rw [heq]
        exact wrap_lt hn hm
    · rw [(workerStep_frame hw).worker i hij]
      exact h i

/-- Only a thread in user code enters a call, so there are no calls of workers that do not
exist. -/
theorem step_outside (hidle : ∀ i ≥ s.size, s.call (.worker i) = .idle)
    (hs : step s x = some s') : ∀ i ≥ s.size, s'.call (.worker i) = .idle := by
  intro i hi
  by_cases hx : x.caller = some (.worker i)
  · cases x with
    | schedule t parent ti fresh =>
        obtain rfl := Option.some.inj hx
        have hlt := (step_schedule hs).1.2.1
        omega
    | jobThen t of job ti fresh =>
        obtain rfl := Option.some.inj hx
        have hlt := (step_jobThen hs).1.2.1
        omega
    | call t =>
        obtain rfl := Option.some.inj hx
        simp only [step, callStep, hidle i hi] at hs
        cases hs
    | shutdown t =>
        obtain rfl := Option.some.inj hx
        have hlt := (step_shutdown hs).1.2.1
        omega
    | finish | work => cases hx
  · rw [step_call hx hs]
    exact hidle i hi

/-- What bounds the indices: `m_NumThreads` only counts down, and a thread-local index was
compared with a value that it had. -/
structure Bounded (n : Nat) (s : State) : Prop where
  size : s.size = n
  winding : Winding s
  tidx : ∀ t, s.tidx t < n
  stealFrom : ∀ i, (s.worker i).stealFrom < n
  outside : ∀ i ≥ s.size, s.call (.worker i) = .idle

theorem Bounded.numThreads_le (h : Bounded n s) : s.numThreads ≤ n := by
  calc s.numThreads
      = s.active.card := h.winding.count
    _ ≤ (Finset.range s.size).card := Finset.card_filter_le ..
    _ = n := by rw [Finset.card_range, h.size]

/-- A worker that has not counted down yet is counted. -/
theorem Bounded.numThreads_pos (h : Bounded n s) (hi : i < s.size)
    (hpc : (s.worker i).pc = .stealInit) : 0 < s.numThreads := by
  have hmem : i ∈ s.active := mem_active.mpr ⟨hi, by rw [hpc]; rfl⟩
  rw [h.winding.count]
  exact Finset.card_pos.mpr ⟨i, hmem⟩

theorem bounded_init (hn : 0 < n) : Bounded n (init n) where
  size := rfl
  winding := winding_init hn
  tidx _ := hn
  stealFrom _ := hn
  outside _ _ := rfl

theorem Bounded.step (hn : 0 < n) (hlt : n < 2 ^ 32) (h : Bounded n s)
    (hs : JobSystem.step s x = some s') : Bounded n s' where
  size := (step_size hs).trans h.size
  winding := h.winding.step (h.size ▸ hlt) hs
  tidx := step_tidx hn h.numThreads_le h.tidx hs
  stealFrom := step_stealFrom hn h.numThreads_le (fun _ => h.numThreads_pos) h.stealFrom hs
  outside := step_size hs ▸ step_outside h.outside hs

/-- A worker uses its own elements, and the global queue at `steal_from`. -/
theorem Bounded.worker_index (h : Bounded n s) (hi : i < s.size) :
    ∀ p ∈ (s.worker i).indices i, p.2 < n := by
  have hin : i < n := h.size ▸ hi
  intro p hp
  unfold Worker.indices at hp
  split at hp
  case h_4 => -- m_GlobalQueues[steal_from].pop()
    rw [List.mem_singleton.mp hp]
    exact h.stealFrom i
  case h_6 | h_7 => -- deallocate_job_queue(..)
    obtain ⟨a, -, rfl⟩ := List.mem_map.mp hp
    exact hin
  case h_8 => cases hp
  all_goals
    rw [List.mem_singleton.mp hp]
    exact hin

theorem Bounded.call_index (h : Bounded n s) (hn : 0 < n) :
    ∀ p ∈ s.callIndices t, p.2 < n := by
  intro p hp
  unfold State.callIndices at hp
  split at hp
  case h_1 => -- m_GlobalQueues[tidx].push(work);
    rw [List.mem_singleton.mp hp]
    exact h.tidx t
  case h_2 hcall => -- m_LocalQueues[l_ThreadIndex].push(work);
    rw [List.mem_singleton.mp hp]
    cases t with
    | client c => exact hn
    | worker i =>
        show i < n
        by_contra hi
        rw [h.outside i (by have := h.size; omega)] at hcall
        cases hcall
  case h_3 => cases hp

theorem Bounded.inRange (h : Bounded n s) (hn : 0 < n) (hs : JobSystem.step s x = some s') :
    s.InRange n x where
  index := by
    cases x with
    | call t => exact h.call_index hn
    | work i => exact h.worker_index (step_work hs).1
    | schedule | jobThen | shutdown | finish =>
        intro p hp
        cases hp
  divisor := by
    rintro i rfl hpc
    exact (h.numThreads_pos (step_work hs).1 hpc).ne'

/-- **All indices are in range.** Take a run of `n` workers, whatever the threads schedule,
whenever they call `shutdown` and however far the workers have counted `m_NumThreads` down.
Every step from every state of the run stays in arrays of `n` elements, and the modulo of
`steal_from` does not divide by zero. -/
theorem indices_in_range (hn : 0 < n) (hlt : n < 2 ^ 32)
    (h : Transition.Run step (init n) tr s) :
    ∀ y ∈ Transition.visited tr s, ∀ x s', step y x = some s' → y.InRange n x := by
  have hbounded : ∀ y ∈ Transition.visited tr s, Bounded n y :=
    h.invariant_visited (C := fun _ _ => True) (bounded_init hn)
      (fun hb _ hs => hb.step hn hlt hs) (fun _ _ => trivial)
  intro y hy x s' hs
  exact (hbounded y hy).inRange hn hs

/-- A client schedules a job after the only worker counted `m_NumThreads` down to zero. -/
theorem indices_in_range_after : ∃ tr s, Transition.Run step (init 1) tr s ∧
    s.numThreads = 0 ∧ s.indices (.call (.client 0)) = [(.globalQueues, 0)] ∧
    s.InRange 1 (.call (.client 0)) := by
  have hexec : ((Transition.exec step (fun _ _ => True) (init 1)
      ([Action.work 0, .work 0, .work 0, .work 0, .shutdown (.client 0)] ++
        List.replicate 10 (.work 0) ++
        [Action.schedule (.client 0) none none 7, .call (.client 0), .call (.client 0)])).any
      fun s => decide (s.numThreads = 0 ∧ s.indices (.call (.client 0)) = [(.globalQueues, 0)] ∧
        (step s (.call (.client 0))).isSome)) = true := by decide
  obtain ⟨tr, s, hrun, -, -, hs⟩ := Transition.exists_run_of_exec hexec
  obtain ⟨hnum, hidx, hstep⟩ := of_decide_eq_true hs
  obtain ⟨s', hs'⟩ := Option.isSome_iff_exists.mp hstep
  exact ⟨tr, s, hrun, hnum, hidx, indices_in_range (by decide) (by decide) hrun s
    (Transition.mem_visited_self tr s) _ s' hs'⟩

end Indices

end Bop.JobSystem
