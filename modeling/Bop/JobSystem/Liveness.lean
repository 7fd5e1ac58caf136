import Bop.JobSystem.Load
import Bop.JobSystem.Pointers

set_option autoImplicit false

/-! # Liveness

What the job system does in the end, in the fair runs of `Load.lean`.

* After `shutdown` was called, `wait_for_shutdown` returns (`shutdown_completes`).
* Without a shutdown the queues run empty, and no job is forgotten (`works_complete`).
-/

namespace Bop.JobSystem

open Transition

/-! ## Towards the next pop, or the end -/

/-- How many tests of the steal loop are left. -/
def testsLeft (n : Nat) : Nat := if n = 0 then 2 ^ 32 else n

/-- How many steps a worker that rests is away from the end, if it pops no job and starts its loop
no more. -/
def Pc.descent : Pc → Nat
  | .setComplete => 1
  | .saveTracelog => 2
  | .countdown => 3
  | .drainClear r => 10 - 2 * r.rank
  | .drain r => 11 - 2 * r.rank
  | .loop => 12
  | .idle => 13
  | .execute _ => 14
  | .stealTest _ n => 15 + 3 * testsLeft n
  | .stealPop n => 16 + 3 * testsLeft n
  | .stealNext n => 17 + 3 * testsLeft n
  | .stealCount _ => 16 + 3 * 2 ^ 32
  | .popGlobal => 17 + 3 * 2 ^ 32
  | .popLocal => 18 + 3 * 2 ^ 32
  | _ => 0

section Descent

variable {s s' : State} {i n : Nat} {r : Resource}

theorem testsLeft_pred32 (h : pred32 n > 0) : testsLeft (pred32 n) < testsLeft n := by
  by_cases hn : n = 0
  · subst hn
    decide
  · have hle : pred32 n ≤ n - 1 := by
      unfold pred32
      omega
    rw [testsLeft, testsLeft, if_neg hn, if_neg h.ne']
    omega

theorem testsLeft_le (h : n < 2 ^ 32) : testsLeft n ≤ 2 ^ 32 := by
  unfold testsLeft
  split <;> omega

theorem Resource.next_descent (r : Resource) : r.next.descent < (Pc.drainClear r).descent := by
  cases r <;> decide

/-- **A step of a worker that rests**: it begins a new pass, it deallocates a job, or it comes
nearer to the end of the pass. -/
theorem workerStep_descends (hrest : (s.worker i).pc.settling = false)
    (hs : workerStep s i = some s') :
    ((s.worker i).pc = .loop ∧ s.shutdown = false ∧ (s'.worker i).pc = .popLocal) ∨
      (∃ r a, (s.worker i).pc = .drain r ∧ s'.worker = s.worker ∧
        s.store.pop (r.queue i) = (some a, s'.store) ∧ s'.live = s.live.erase a) ∨
      (s'.live = s.live ∧ (s'.worker i).pc.descent < (s.worker i).pc.descent) := by
  -- a step from `pc` that goes on at `w`
  have hgo : ∀ {w : Worker} {pc : Pc}, (s.worker i).pc = pc →
      s'.worker = Function.update s.worker i w → s'.live = s.live →
      w.pc.descent < pc.descent →
      s'.live = s.live ∧ (s'.worker i).pc.descent < (s.worker i).pc.descent := by
    intro w pc hpc hw hl hlt
    rw [hpc, hw, Function.update_self]
    exact ⟨hl, hlt⟩
  cases workerStep_move hs with
  | start hpc | arrive hpc | spin hpc | released hpc | stealInit hpc | execute hpc | storeTrace hpc
  | readContinuation hpc | handOver hpc | complete hpc | completed hpc =>
      rw [hpc] at hrest
      cases hrest
  | stay hpc hrun => exact Or.inl ⟨hpc, hrun, goto_pc s i _⟩
  | @drain r a st hpc hpop => exact Or.inr (Or.inl ⟨r, a, hpc, rfl, hpop, rfl⟩)
  | leave hpc | noJob hpc | saveTracelog hpc | setComplete hpc =>
      exact Or.inr (Or.inr (hgo hpc rfl rfl (Nat.lt_succ_self _)))
  | noLocal hpc | popLocal hpc | popGlobal hpc | stealNext hpc | stealPop hpc | collect hpc
  | idle hpc =>
      refine Or.inr (Or.inr (hgo hpc rfl rfl ?_))
      simp only [Pc.descent]
      omega
  | stealCount hpc =>
      have hle : testsLeft (pred32 s.numThreads) ≤ 2 ^ 32 :=
        testsLeft_le (Nat.mod_lt _ (by decide))
      refine Or.inr (Or.inr (hgo hpc rfl rfl ?_))
      simp only [Pc.descent]
      omega
  | hasJob hpc | stealEnd hpc =>
      refine Or.inr (Or.inr (hgo hpc rfl rfl ?_))
      simp only [Pc.descent]
      omega
  | stealOn hpc h =>
      have hlt := testsLeft_pred32 h
      refine Or.inr (Or.inr (hgo hpc rfl rfl ?_))
      simp only [Pc.descent]
      omega
  | @drained r st hpc =>
      refine Or.inr (Or.inr (hgo hpc rfl rfl ?_))
      cases r <;> simp [Pc.descent, Resource.rank]
  | drainClear hpc => exact Or.inr (Or.inr (hgo hpc rfl rfl (Resource.next_descent _)))
  | countdown hpc =>
      refine Or.inr (Or.inr (hgo hpc rfl rfl ?_))
      show (if s.numThreads = 1 then Pc.saveTracelog else .done).descent < 3
      split <;> simp [Pc.descent]

end Descent

/-! ## After the shutdown -/

section Shutdown

variable {n k K i : Nat} {x : Nat → State} {a : Nat → Option Action} {b : Action} {s : State}

/-- What is left of the clean-up of the `n` workers. -/
def State.cleanup (s : State) (n : Nat) : Nat :=
  s.live.length + (Finset.range n).sum fun i => (s.worker i).pc.descent

/-- Once it is requested, the shutdown is not taken back. -/
theorem FairRun.shutdown (h : FairRun n x a) (hs : (x k).shutdown = true) :
    ∀ j ≥ k, (x j).shutdown = true := by
  refine h.behaviour.stays (I := fun s => s.shutdown = true) hs (fun j _ b _ hs hI => ?_)
  by_cases hb : b.NoShutdown
  · rw [step_noShutdown hb hs, hI]
  · cases b with
    | shutdown t =>
        obtain ⟨-, hx⟩ := step_shutdown hs
        rw [hx]
    | _ => exact absurd trivial hb

/-- Then only workers that rest take steps, and the thread that calls `shutdown` once more. -/
theorem AtRest.work_or (hK : AtRest x a K) (hk : k ≥ K) (hb : a k = some b) :
    (∃ i, b = .work i) ∨ ∃ t, b = .shutdown t := by
  obtain ⟨hcreates, hsettles⟩ := hK k hk b hb
  cases b with
  | schedule | jobThen => exact absurd trivial hcreates
  | call | finish => exact absurd trivial hsettles
  | shutdown t => exact Or.inr ⟨t, rfl⟩
  | work i => exact Or.inl ⟨i, rfl⟩

/-- **The clean-up gets on** with each step of a worker. -/
theorem FairRun.cleanup_step (hn : 0 < n) (hlt : n < 2 ^ 32) (h : FairRun n x a)
    (hK : AtRest x a K) (hk : k ≥ K) (hshut : (x k).shutdown = true) (hb : a k = some b)
    (hs : step (x k) b = some (x (k + 1))) :
    (x (k + 1)).cleanup n ≤ (x k).cleanup n ∧
      ((∃ i, b = .work i) → (x (k + 1)).cleanup n < (x k).cleanup n) := by
  rcases hK.work_or hk hb with ⟨i, rfl⟩ | ⟨t, rfl⟩
  case inr =>
    obtain ⟨-, hx⟩ := step_shutdown hs
    rw [hx]
    refine ⟨le_rfl, fun hw => ?_⟩
    obtain ⟨i, hw⟩ := hw
    cases hw
  case inl =>
    have hlt' : (x (k + 1)).cleanup n < (x k).cleanup n := by
      obtain ⟨hi, hw⟩ := step_work hs
      have hi' : i < n := h.size k ▸ hi
      have hsum := sum_worker hi' (workerStep_frame hw).worker Pc.descent
      unfold State.cleanup
      rcases workerStep_descends (h.rests hn hlt hK hi' k hk).1 hw with
        ⟨-, hrun, -⟩ | ⟨r, job, -, hworker, hpop, hlive⟩ | ⟨hlive, hless⟩
      · rw [hshut] at hrun
        cases hrun
      · -- a job is deallocated
        obtain ⟨place, hv, ho, -⟩ := (h.served k).ledger
        have hmem : job ∈ (x k).live :=
          ho.valid.live ((hv.queue _ job).mp (hv.store.pop_some hpop).2.1)
        have hpos : 0 < (x k).live.length := List.length_pos_of_mem hmem
        rw [hworker, hlive, List.length_erase_of_mem hmem]
        omega
      · rw [hlive]
        omega
    exact ⟨hlt'.le, fun _ => hlt'⟩

/-- The shutdown is complete when all workers are done. -/
theorem Winding.complete (h : Winding s) (hdone : ∀ i < s.size, (s.worker i).pc = .done) :
    s.shutdownComplete = true := by
  have hempty : s.active = ∅ := by
    refine Finset.eq_empty_of_forall_notMem fun i hi => ?_
    obtain ⟨hi, hgone⟩ := mem_active.mp hi
    rw [hdone i hi] at hgone
    cases hgone
  obtain ⟨i, hi, -, hfin⟩ := h.ended hempty
  rw [hdone i hi] at hfin
  exact hfin.2

/-- **The shutdown comes to its end.** Take a fair run of `n` workers without parents in which the
shutdown is requested at some time. From some time on `wait_for_shutdown` returns, all workers
are done, and each work that was started has run to its end: none is cut off. -/
theorem shutdown_completes (hn : 0 < n) (hlt : n < 2 ^ 32) (h : FairRun n x a)
    (hshut : (x k).shutdown = true) :
    ∃ K, ∀ j ≥ K, (x j).waiting = false ∧ (∀ i < n, ((x j).worker i).pc = .done) ∧
      ∀ w i v, .started w i v ∈ (x j).log → .finished w ∈ (x j).log ∧ .recycled w ∈ (x j).log := by
  obtain ⟨K₀, hK₀⟩ := h.settles
  -- from `K₁` on the workers rest and know of the shutdown, from `K` on they take no steps
  have hK₁ : AtRest x a (max K₀ k) := fun j hj => hK₀ j ((le_max_left K₀ k).trans hj)
  obtain ⟨K, hK, hno⟩ := h.behaviour.settles (fun s => s.cleanup n) (fun _ b => ∃ i, b = .work i)
    (fun j hj b hb hs => h.cleanup_step hn hlt hK₁ hj
      (h.shutdown hshut j ((le_max_right K₀ k).trans hj)) hb hs)
  have hdone : ∀ j ≥ K, ∀ i < n, ((x j).worker i).pc = .done := by
    intro j hj i hi
    by_contra hnot
    obtain ⟨hset, hrun⟩ := h.rests hn hlt hK₁ hi j (hK.trans hj)
    refine h.behaviour.never (K := K) (I := fun s => (s.worker i).pc = ((x j).worker i).pc)
      (h.work i hi) (fun l hl _ hw => hno l hl _ hw ⟨i, rfl⟩) (fun l _ hpc => ?_)
      (fun l hl b hb hs hpc => ?_) j hj rfl
    · have hsome := workerStep_isSome (s := x l) (i := i) (by rw [hpc]; exact hrun)
        (by rwa [hpc])
      simp only [step, h.size l, hi, if_true]
      exact hsome
    · rw [hK₁.worker_eq (hK.trans hl) hb hs fun hbi => hno l hl b hb ⟨i, hbi⟩]
      exact hpc
  refine ⟨K, fun j hj => ⟨?_, hdone j hj, fun w i v hst => ?_⟩⟩
  · obtain ⟨tr, hrun⟩ := h.run j
    obtain ⟨hsize, hw⟩ := run_winding hrun hn hlt
    have hcomplete := hw.complete fun i hi => hdone j hj i (hsize ▸ hi)
    simp [State.waiting, hcomplete]
  · obtain ⟨place, hv, ho, hr, -⟩ := (h.served j).ledger
    have hrecycled : .recycled ∈ trail (x j).log w := by
      by_contra hrecycled
      obtain ⟨c, i', l, v', hc, -⟩ := hr w (started_iff.mpr ⟨i, v, hst⟩) hrecycled
      obtain ⟨hcur, -⟩ := (hv.run i' c l v').mpr hc
      by_cases hi' : i' < n
      · rw [hdone j hj i' hi'] at hcur
        cases hcur
      · obtain ⟨tr, hrun⟩ := h.run j
        rw [(worker_outside hrun).2 i' (Nat.not_lt.mp hi')] at hcur
        cases hcur
    exact ⟨finished_iff.mp (ho.valid.mem_trail_of_le hrecycled (by decide)), recycled_iff.mp hrecycled⟩

/-- A client schedules a job and requests the shutdown. -/
theorem shutdown_completes_one : ∃ x a, FairRun 1 x a ∧ (x 5).shutdown = true ∧
    ∃ K, ∀ j ≥ K, (x j).waiting = false ∧ ((x j).worker 0).pc = .done := by
  have hfair := turns_fairRun (l := oneJob ++ [.shutdown (.client 0)]) (by decide)
  obtain ⟨K, hK⟩ := shutdown_completes (k := 5) (by decide) (by decide) hfair (by decide)
  exact ⟨_, _, hfair, by decide, K, fun j hj => ⟨(hK j hj).1, (hK j hj).2.1 0 (by decide)⟩⟩

end Shutdown

/-! ## Without a shutdown -/

section Service

variable {n k K i : Nat} {x : Nat → State} {a : Nat → Option Action} {s s' : State} {q : QueueId}
variable {c : Addr}

/-- How many steps a worker that finds no job is away from its pop of the queue `q`. -/
def Pc.before (q : QueueId) (i : Nat) : Pc → Nat
  | .popLocal => 1
  | .popGlobal => if q = .globalQueue i then 0 else Pc.popGlobal.descent
  | pc => pc.descent

theorem Pc.before_le (pc : Pc) : pc.before q i ≤ pc.descent := by
  cases pc with
  | popLocal =>
      simp only [before, descent]
      omega
  | popGlobal =>
      simp only [before]
      split
      · exact Nat.zero_le _
      · exact le_rfl
  | _ => exact le_rfl

theorem Pc.before_eq {pc : Pc} (hl : pc ≠ .popLocal) (hg : pc ≠ .popGlobal) :
    pc.before q i = pc.descent := by
  cases pc with
  | popLocal => exact absurd rfl hl
  | popGlobal => exact absurd rfl hg
  | _ => rfl

/-- **A worker comes to its queues.** While there is a job in one of them, each step of the worker
brings it nearer to the pop, or it gets a job. -/
theorem workerStep_nears (hstore : s.store.WellFormed) (hq : q = .localQueue i ∨ q = .globalQueue i)
    (hc : s.store.Linked q c) (hrest : (s.worker i).pc.settling = false)
    (hin : (s.worker i).pc.left = false) (hs : workerStep s i = some s') :
    (s'.worker i).pc.current ≠ none ∨
      (s'.worker i).pc.before q i < (s.worker i).pc.before q i := by
  have hself : ∀ {w : Worker}, s'.worker = Function.update s.worker i w → s'.worker i = w :=
    fun hw => by rw [hw, Function.update_self]
  cases hpc : (s.worker i).pc with
  | popLocal =>
      have hmove := workerStep_move hs
      cases hmove with
      | popLocal hpc' hpop =>
          left
          rw [hself rfl]
          simp [Pc.current]
      | noLocal hpc' hpop =>
          -- the job is in the global queue then
          obtain ⟨-, hnone⟩ := hstore.pop_none hpop
          have hqg : q = .globalQueue i := hq.resolve_left fun hql => hnone c (hql ▸ hc)
          right
          rw [hself rfl]
          simp [Pc.before, hqg]
      | _ => simp_all
  | popGlobal =>
      have hmove := workerStep_move hs
      cases hmove with
      | @popGlobal o st hpc' hpop =>
          cases o with
          | some job =>
              left
              rw [hself rfl]
              simp [Pc.current]
          | none =>
              obtain ⟨-, hnone⟩ := hstore.pop_none hpop
              have hqg : q ≠ .globalQueue i := fun hqg => hnone c (hqg ▸ hc)
              right
              rw [hself rfl]
              simp only [Pc.before, hqg, if_false, Pc.descent]
              omega
      | _ => simp_all
  | _ =>
      right
      have heq : ((s.worker i).pc).before q i = ((s.worker i).pc).descent :=
        Pc.before_eq (by simp [hpc]) (by simp [hpc])
      rw [← hpc, heq]
      rcases workerStep_descends hrest hs with ⟨hl, -, hpc'⟩ | ⟨r, job, hd, -⟩ | ⟨-, hlt⟩
      · rw [hl, hpc']
        simp [Pc.before, Pc.descent]
      · rw [hd] at hin
        cases hin
      · exact (Pc.before_le _).trans_lt hlt

/-- A worker that rests has no job, or it has just got one. -/
theorem Pc.current_of_rest {pc : Pc} (hset : pc.settling = false) (hrun : ∀ job, pc ≠ .running job)
    (hcur : pc.current ≠ none) :
    (∃ job, pc = .stealCount (some job)) ∨ ∃ job m, pc = .stealTest (some job) m := by
  cases pc with
  | stealCount o =>
      cases o with
      | none => exact absurd rfl hcur
      | some job => exact Or.inl ⟨job, rfl⟩
  | stealTest o m =>
      cases o with
      | none => exact absurd rfl hcur
      | some job => exact Or.inr ⟨job, m, rfl⟩
  | execute o =>
      cases o with
      | none => exact absurd rfl hcur
      | some job => cases hset
  | running job => exact absurd rfl (hrun job)
  | storeTrace | readContinuation | handOver => cases hset
  | complete c o => cases hset
  | _ => exact absurd rfl hcur

/-- **No worker has a job** in the end: it would start it. -/
theorem FairRun.no_current (hn : 0 < n) (hlt : n < 2 ^ 32) (h : FairRun n x a)
    (hK : AtRest x a K) : ∀ k ≥ K, ∀ i, ((x k).worker i).pc.current = none := by
  intro k hk i
  by_cases hi : i < n
  case neg =>
    obtain ⟨tr, hrun⟩ := h.run k
    rw [(worker_outside hrun).2 i (Nat.not_lt.mp hi)]
    rfl
  by_contra hcur
  -- the steps that are left lead to the call of the work, where the worker does not rest
  suffices hex : ∃ j ≥ k, ((x j).worker i).pc.settling = true by
    obtain ⟨j, hj, hset⟩ := hex
    rw [(h.rests hn hlt hK hi j (hk.trans hj)).1] at hset
    cases hset
  refine h.behaviour.reaches (I := fun s => (s.worker i).pc.current ≠ none)
    (Q := fun s => (s.worker i).pc.settling = true) (h.work i hi)
    (fun s => (s.worker i).pc.descent) hcur (fun j hj hcur => ?_) (fun j hj b hb hs hcur => ?_)
  · obtain ⟨-, hrun⟩ := h.rests hn hlt hK hi j (hk.trans hj)
    have hsome := workerStep_isSome hrun fun hd => hcur (by rw [hd]; rfl)
    simp only [step, h.size j, hi, if_true]
    exact hsome
  · obtain ⟨hset, hrun⟩ := h.rests hn hlt hK hi j (hk.trans hj)
    by_cases hbi : b = .work i
    · subst hbi
      obtain ⟨-, hw⟩ := step_work hs
      have hcur' : ((x (j + 1)).worker i).pc.current ≠ none := by
        rcases Pc.current_of_rest hset hrun hcur with ⟨job, hpc⟩ | ⟨job, m, hpc⟩
        · simp only [workerStep, hpc] at hw
          rw [← Option.some.inj hw, goto_pc]
          simp [Pc.current]
        · simp only [workerStep, hpc] at hw
          rw [← Option.some.inj hw, goto_pc]
          simp [Pc.current]
      rcases workerStep_descends hset hw with ⟨hl, -⟩ | ⟨r, job, hd, -⟩ | ⟨-, hless⟩
      · rw [hl] at hcur
        exact absurd rfl hcur
      · rw [hd] at hcur
        exact absurd rfl hcur
      · exact Or.inr ⟨hcur', hless.le, fun _ => hless⟩
    · have heq := hK.worker_eq (hk.trans hj) hb hs hbi
      rw [heq]
      exact Or.inr ⟨hcur, le_rfl, fun hb => absurd hb hbi⟩

/-- **The queues are empty** in the end, if no shutdown is requested: the worker that has a queue
with a job in it would come to it. -/
theorem FairRun.no_linked (hn : 0 < n) (hlt : n < 2 ^ 32) (h : FairRun n x a)
    (hK : AtRest x a K) (hrun : ∀ k, (x k).shutdown = false) (hbin : q.isBin = false) :
    ∀ k ≥ K, ¬ (x k).store.Linked q c := by
  intro k hk hc
  obtain ⟨tr, hr⟩ := h.run k
  obtain ⟨i, hi, hq⟩ := run_queuesOwned hn hlt hr q c hbin hc
  suffices hex : ∃ j ≥ k, ∃ l, ((x j).worker l).pc.current ≠ none by
    obtain ⟨j, hj, l, hcur⟩ := hex
    exact hcur (h.no_current hn hlt hK j (hk.trans hj) l)
  refine h.behaviour.reaches (I := fun s => s.store.Linked q c)
    (Q := fun s => ∃ l, (s.worker l).pc.current ≠ none) (h.work i hi)
    (fun s => (s.worker i).pc.before q i) hc (fun j hj _ => ?_) (fun j hj b hb hs hc => ?_)
  · obtain ⟨-, hnorun⟩ := h.rests hn hlt hK hi j (hk.trans hj)
    have hin := (h.served j).inside (hrun j) i
    have hsome := workerStep_isSome hnorun fun hd => by
      rw [hd] at hin
      cases hin
    simp only [step, h.size j, hi, if_true]
    exact hsome
  · rcases (h.served j).linked (hrun (j + 1)) hs hbin hc with hc' | ⟨l, hcur⟩
    case inr => exact Or.inl ⟨l, by simp [hcur]⟩
    by_cases hbi : b = .work i
    · subst hbi
      obtain ⟨-, hw⟩ := step_work hs
      obtain ⟨hset, -⟩ := h.rests hn hlt hK hi j (hk.trans hj)
      obtain ⟨place, hv, -⟩ := (h.served j).ledger
      rcases workerStep_nears hv.store hq hc hset ((h.served j).inside (hrun j) i) hw with
        hcur | hless
      · exact Or.inl ⟨i, hcur⟩
      · exact Or.inr ⟨hc', hless.le, fun _ => hless⟩
    · have heq := hK.worker_eq (hk.trans hj) hb hs hbi
      rw [heq]
      exact Or.inr ⟨hc', le_rfl, fun hb => absurd hb hbi⟩

/-- **Every job is served.** Take a fair run of `n` workers without parents and without a shutdown.
From some time on nothing is left to do: no thread is in a call, the queues are empty, and no
worker has a job. Each work that was scheduled has run to its end then, and its job is recycled;
if the continuations were written in time, this is so for every work. -/
theorem works_complete (hn : 0 < n) (hlt : n < 2 ^ 32) (h : FairRun n x a)
    (hrun : ∀ k, (x k).shutdown = false) :
    ∃ K, ∀ k ≥ K, (x k).Quiescent ∧
      (∀ w c, .scheduled w c ∈ (x k).log → .finished w ∈ (x k).log ∧ .recycled w ∈ (x k).log) ∧
      ((∀ j b, a j = some b → (x j).InTime b) → ∀ w, 0 < w → w < (x k).nextWork →
        .finished w ∈ (x k).log ∧ .recycled w ∈ (x k).log) := by
  obtain ⟨K, hK⟩ := h.settles
  refine ⟨K, fun k hk => ?_⟩
  have hquiet : (x k).Quiescent :=
    ⟨hrun k, fun q hq c => h.no_linked hn hlt hK hrun hq k hk, h.no_current hn hlt hK k hk,
      fun t => h.calls hK k hk⟩
  obtain ⟨place, -, ho, -⟩ := (h.served k).ledger
  have hboth : ∀ {w}, .recycled ∈ trail (x k).log w →
      .finished w ∈ (x k).log ∧ .recycled w ∈ (x k).log := fun hrecycled =>
    ⟨finished_iff.mp (ho.valid.mem_trail_of_le hrecycled (by decide)), recycled_iff.mp hrecycled⟩
  refine ⟨hquiet, fun w c hw => hboth ((h.served k).recycled hquiet hw), fun htime w hpos hw => ?_⟩
  have htimely : Timely (x k) :=
    h.behaviour.invariant (C := fun s b => s.NoneToTell b ∧ s.InTime b) (timely_init n)
      (fun hI hC hs => hI.step hC.1 hC.2 hs)
      (fun j b hb => ⟨(h.served j).rootless.noneToTell b, htime j b hb⟩) k
  exact hboth (htimely.recycled hquiet w hpos hw)

/-- A client schedules a job. -/
theorem works_complete_one : ∃ x a, FairRun 1 x a ∧ .scheduled 1 7 ∈ (x 4).log ∧
    ∃ K, ∀ k ≥ K, (x k).Quiescent ∧ .finished 1 ∈ (x k).log := by
  have hfair := turns_fairRun (l := oneJob) (by decide)
  have hno : ∀ b ∈ oneJob, b.NoShutdown := by decide
  have hrun := hfair.behaviour.invariant (I := fun s => s.shutdown = false)
    (C := fun _ b => b.NoShutdown) rfl
    (fun hI hC hs => (step_noShutdown hC hs).trans hI) fun k b hb => by
      rw [eq_of_played hb]
      rcases turns_cases oneJob k with ⟨-, hmem⟩ | hk | hk | hk
      · exact hno _ hmem
      · rw [hk]
        trivial
      · rw [hk]
        trivial
      · rw [hk]
        trivial
  have hsched : .scheduled 1 7 ∈ (play step (init 1) (turns oneJob) 4).log := by decide
  obtain ⟨K, hK⟩ := works_complete (by decide) (by decide) hfair hrun
  have hmono := hfair.behaviour.stays (I := fun s => .scheduled 1 7 ∈ s.log) hsched
    (fun _ _ _ _ hs hI => step_log hs hI)
  refine ⟨_, _, hfair, hsched, max K 4, fun k hk => ?_⟩
  obtain ⟨hquiet, hdone, -⟩ := hK k ((le_max_left K 4).trans hk)
  exact ⟨hquiet, (hdone 1 7 (hmono k ((le_max_right K 4).trans hk))).1⟩

end Service

end Bop.JobSystem
