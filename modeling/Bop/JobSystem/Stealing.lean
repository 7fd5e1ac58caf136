import Bop.JobSystem.Frame
import Bop.Queue.Fifo

set_option autoImplicit false

/-! # A steal pass

A worker without a job of its own looks through the global queues of the others, starting after
`steal_from`. `numStealAttempts` starts at `m_NumThreads - 1` and is decremented before it is
tested, so the loop runs `m_NumThreads - 2` times; with one worker it wraps around.

A pass is what worker `i` does alone, from the test of its local queue until it has a job or gives
up. Its probes are `probesOf`, and `steal_pass_iff` says exactly when they are complete.
-/

namespace Bop.JobSystem

open Transition (Run)

/-! ## The pass -/

/-- Whether a worker is looking for a job. -/
def Pc.seeks : Pc → Bool
  | .popLocal | .popGlobal | .stealCount _ | .stealTest _ _ | .stealNext _ | .stealPop _ => true
  | _ => false

/-- The queue that the steal loop probes in the next step. -/
def Worker.probe (w : Worker) : List Nat :=
  match w.pc with
  | .stealPop _ => [w.stealFrom]
  | _ => []

/-- Worker `i` alone looks for a job, with these probes. -/
inductive StealPass (i : Nat) : State → List Nat → State → Prop
  | done {s : State} : (s.worker i).pc.seeks = false → StealPass i s [] s
  | step {s s₁ s' : State} {ps : List Nat} :
      (s.worker i).pc.seeks = true → step s (.work i) = some s₁ → StealPass i s₁ ps s' →
        StealPass i s ((s.worker i).probe ++ ps) s'

variable {i n m r q x : Nat} {s s' s'' : State} {ps ps' : List Nat} {busy : Nat → Bool}

/-- There is one way only to look for a job. -/
theorem StealPass.unique (h : StealPass i s ps s') (h' : StealPass i s ps' s'') :
    ps = ps' ∧ s' = s'' := by
  induction h generalizing ps' with
  | done hpc =>
      cases h' with
      | done => exact ⟨rfl, rfl⟩
      | step hseeks => rw [hpc] at hseeks; cases hseeks
  | step hseeks hs _ ih =>
      cases h' with
      | done hpc => rw [hpc] at hseeks; cases hseeks
      | step _ hs' hrest =>
          obtain rfl := Option.some.inj (hs.symm.trans hs')
          obtain ⟨rfl, rfl⟩ := ih hrest
          exact ⟨rfl, rfl⟩

/-- A pass is a run in which nobody else acts. -/
theorem StealPass.run (h : StealPass i s ps s') :
    ∃ tr, Run JobSystem.step s tr s' ∧ ∀ p ∈ tr, p.2 = .work i := by
  induction h with
  | done => exact ⟨[], .nil, fun p hp => by cases hp⟩
  | @step s s₁ s' ps _ hs _ ih =>
      obtain ⟨tr, hrun, hsolo⟩ := ih
      refine ⟨tr ++ [(s, .work i)], (Run.snoc .nil hs).append hrun, fun p hp => ?_⟩
      rcases List.mem_append.mp hp with hp | hp
      · exact hsolo p hp
      · rw [List.mem_singleton.mp hp]

/-! ## The probes

The queues after `r`, at most `m` of them, up to the first one that has a job. -/

def probesOf (busy : Nat → Bool) (n : Nat) : Nat → Nat → List Nat
  | 0, _ => []
  | m + 1, r => (r + 1) % n :: if busy ((r + 1) % n) then [] else probesOf busy n m ((r + 1) % n)

theorem probesOf_length_le : (probesOf busy n m r).length ≤ m := by
  induction m generalizing r with
  | zero => exact Nat.le_refl 0
  | succ m ih =>
      unfold probesOf
      split
      · simp
      · simpa using ih

theorem succ_mod_add (r k n : Nat) : ((r + 1) % n + 1 + k) % n = (r + 1 + (k + 1)) % n := by
  have harrange : (r + 1) % n + 1 + k = (r + 1) % n + (k + 1) := by omega
  rw [harrange, Nat.mod_add_mod]

theorem mem_probesOf (hx : x ∈ probesOf busy n m r) : ∃ k < m, x = (r + 1 + k) % n := by
  induction m generalizing r with
  | zero => cases hx
  | succ m ih =>
      rcases List.mem_cons.mp hx with rfl | hx
      · exact ⟨0, Nat.succ_pos m, rfl⟩
      · split at hx
        · cases hx
        · obtain ⟨k, hk, rfl⟩ := ih hx
          exact ⟨k + 1, Nat.succ_lt_succ hk, succ_mod_add r k n⟩

/-- A job is found iff one of the queues has one. -/
theorem exists_busy_iff : (∃ k ∈ probesOf busy n m r, busy k = true) ↔
    ∃ k < m, busy ((r + 1 + k) % n) = true := by
  constructor
  case mp =>
    rintro ⟨x, hx, hbusy⟩
    obtain ⟨k, hk, rfl⟩ := mem_probesOf hx
    exact ⟨k, hk, hbusy⟩
  case mpr =>
    induction m generalizing r with
    | zero =>
        rintro ⟨k, hk, -⟩
        cases hk
    | succ m ih =>
        rintro ⟨k, hk, hbusy⟩
        by_cases hfirst : busy ((r + 1) % n) = true
        · exact ⟨_, List.mem_cons_self, hfirst⟩
        · cases k with
          | zero => exact absurd hbusy hfirst
          | succ k =>
              obtain ⟨x, hx, hbx⟩ := ih ⟨k, Nat.lt_of_succ_lt_succ hk, by rwa [succ_mod_add]⟩
              refine ⟨x, List.mem_cons_of_mem _ ?_, hbx⟩
              rwa [if_neg hfirst]

/-- The next queues but two are all except for the one at `r` and the one before it. -/
theorem exists_offset (hr : r < n) (hx : x < n) :
    (∃ k < n - 2, x = (r + 1 + k) % n) ↔ x ≠ r ∧ (x + 1) % n ≠ r := by
  -- one wrap around at most: the offsets are less than `n`
  have hnext : (x + 1) % n = if x + 1 = n then 0 else x + 1 := by
    split
    case isTrue hxn => rw [hxn, Nat.mod_self]
    case isFalse hxn => exact Nat.mod_eq_of_lt (by omega)
  have hmod : ∀ k < n, (r + 1 + k) % n = if r + 1 + k < n then r + 1 + k else r + 1 + k - n := by
    intro k hk
    split
    case isTrue hlt => exact Nat.mod_eq_of_lt hlt
    case isFalse hge =>
      rw [Nat.mod_eq_sub_mod (by omega)]
      exact Nat.mod_eq_of_lt (by omega)
  rw [hnext]
  constructor
  case mp =>
    rintro ⟨k, hk, hxk⟩
    rw [hmod k (by omega)] at hxk
    split at hxk <;> split <;> omega
  case mpr =>
    intro hne
    by_cases hlt : r < x
    · refine ⟨x - r - 1, ?_, ?_⟩
      · split at hne <;> omega
      · rw [hmod _ (by omega), if_pos (by omega)]
        omega
    · refine ⟨x + n - r - 1, ?_, ?_⟩
      · split at hne <;> omega
      · rw [hmod _ (by split at hne <;> omega), if_neg (by omega)]
        omega

/-! ## The steps of a pass -/

variable {c : QueueId → List Addr}

/-- The state during a pass, until a job is taken. -/
structure Seeking (i n : Nat) (c : QueueId → List Addr) (r : Nat) (s : State) : Prop where
  size : i < s.size
  numThreads : s.numThreads = n
  store : s.store.Holds c
  stealFrom : (s.worker i).stealFrom = r

theorem step_eq (hi : i < s.size) : step s (.work i) = workerStep s i := if_pos hi

theorem Seeking.goto (h : Seeking i n c r s) (pc : Pc) : Seeking i n c r (s.goto i pc) where
  size := h.size
  numThreads := h.numThreads
  store := h.store
  stealFrom := by
    show (Function.update s.worker i _ i).stealFrom = r
    rw [Function.update_self]
    exact h.stealFrom

theorem Seeking.gotoVia (h : Seeking i n c r s) (pc : Pc) (via : Option Work) :
    Seeking i n c r (s.gotoVia i pc via) where
  size := h.size
  numThreads := h.numThreads
  store := h.store
  stealFrom := by
    show (Function.update s.worker i _ i).stealFrom = r
    rw [Function.update_self]
    exact h.stealFrom

theorem gotoVia_pc (s : State) (i : Nat) (pc : Pc) (via : Option Work) :
    ((s.gotoVia i pc via).worker i).pc = pc := by
  show (Function.update s.worker i _ i).pc = pc
  rw [Function.update_self]

/-- One step of a pass, which is not a probe. -/
theorem StealPass.cons {s₁ : State} (hs : JobSystem.step s (.work i) = some s₁)
    (hseeks : (s.worker i).pc.seeks = true) (hprobe : (s.worker i).probe = [])
    (h : StealPass i s₁ ps s') : StealPass i s ps s' := by
  have hpass := StealPass.step hseeks hs h
  rwa [hprobe] at hpass

/-- The worker stops looking. -/
theorem StealPass.stop {s₁ : State} {pc : Pc} (hs : JobSystem.step s (.work i) = some s₁)
    (hseeks : (s.worker i).pc.seeks = true) (hprobe : (s.worker i).probe = [])
    (hpc : (s₁.worker i).pc = pc) (hstop : pc.seeks = false) : StealPass i s [] s₁ :=
  .cons hs hseeks hprobe (.done (by rw [hpc, hstop]))

theorem Seeking.next (h : Seeking i n c r s) (hr : r < n) (hn : n < 2 ^ 32)
    (hpc : (s.worker i).pc = .stealNext q) : ∃ s₁, step s (.work i) = some s₁ ∧
      Seeking i n c ((r + 1) % n) s₁ ∧ (s₁.worker i).pc = .stealPop q := by
  refine ⟨_, by rw [step_eq h.size]; simp only [workerStep, hpc]; rfl, ?_, ?_⟩
  · refine ⟨h.size, h.numThreads, h.store, ?_⟩
    show (Function.update s.worker i _ i).stealFrom = _
    rw [Function.update_self, h.numThreads, h.stealFrom]
    exact wrap_eq_mod hr hn
  · show (Function.update s.worker i _ i).pc = _
    rw [Function.update_self]

/-- A probe of an empty queue. -/
theorem Seeking.pop_nil (h : Seeking i n c r s) (hpc : (s.worker i).pc = .stealPop q)
    (hempty : c (.globalQueue r) = []) : ∃ s₁, step s (.work i) = some s₁ ∧
      Seeking i n c r s₁ ∧ (s₁.worker i).pc = .stealTest none q := by
  have hpop : JobQueue.pop s.store (.globalQueue (s.worker i).stealFrom) = (none, s.store) := by
    rw [h.stealFrom]
    exact h.store.pop_nil hempty
  refine ⟨s.gotoVia i (.stealTest none q) none, ?_, h.gotoVia _ _, gotoVia_pc s i _ _⟩
  rw [step_eq h.size]
  simp only [workerStep, hpc, hpop]
  rfl

/-- A probe of a queue that has a job. -/
theorem Seeking.pop_cons (h : Seeking i n c r s) (hpc : (s.worker i).pc = .stealPop q)
    {job : Addr} {l : List Addr} (hcons : c (.globalQueue r) = job :: l) :
    ∃ s₁, step s (.work i) = some s₁ ∧ i < s₁.size ∧
      (s₁.worker i).pc = .stealTest (some job) q := by
  have hpop : (JobQueue.pop s.store (.globalQueue (s.worker i).stealFrom)).1 = some job := by
    rw [h.stealFrom]
    exact (h.store.pop_cons hcons).1
  refine ⟨{ s.gotoVia i (.stealTest (some job) q) none with
    store := (JobQueue.pop s.store (.globalQueue (s.worker i).stealFrom)).2 }, ?_, h.size,
    gotoVia_pc s i _ _⟩
  rw [step_eq h.size]
  simp only [workerStep, hpc, hpop]

theorem step_found {job : Addr} (hi : i < s.size)
    (hpc : (s.worker i).pc = .stealTest (some job) q) :
    step s (.work i) = some (s.goto i (.execute (some job))) := by
  rw [step_eq hi]
  simp only [workerStep, hpc]

/-- Whether a global queue has a job. -/
def busyIn (c : QueueId → List Addr) (k : Nat) : Bool := !(c (.globalQueue k)).isEmpty

theorem busyIn_iff {k : Nat} : busyIn c k = true ↔ c (.globalQueue k) ≠ [] := by
  simp [busyIn]

/-- How a pass with the probes `ps` ends: with a job iff one of these queues has one. -/
def State.EndsWith (s : State) (i : Nat) (c : QueueId → List Addr) (ps : List Nat) : Prop :=
  ∃ job, (s.worker i).pc = .execute job ∧
    (job.isSome = true ↔ ∃ k ∈ ps, busyIn c k = true)

/-- **The steal loop.** From the counter `q` on it makes `pred32 q` probes at most. -/
theorem steal_loop (hn : n < 2 ^ 32) (h : Seeking i n c r s) (hr : r < n)
    (hpc : (s.worker i).pc = .stealTest none q) (hm : pred32 q = m) (hm' : m < 2 ^ 32) :
    ∃ s', StealPass i s (probesOf (busyIn c) n m r) s' ∧
      s'.EndsWith i c (probesOf (busyIn c) n m r) := by
  -- by induction on the number of probes that are left
  induction m generalizing s r q with
  | zero =>
      have hs : step s (.work i) = some (s.goto i (.execute none)) := by
        rw [step_eq h.size]
        simp only [workerStep, hpc, hm]
        rfl
      refine ⟨_, .stop hs (by rw [hpc]; rfl) (by simp [Worker.probe, hpc]) (goto_pc s i _) rfl,
        none, goto_pc s i _, by simp [probesOf]⟩
  | succ m ih =>
      have hr' : (r + 1) % n < n := Nat.mod_lt _ (by omega)
      -- the test, and the next index
      have hs₁ : step s (.work i) = some (s.goto i (.stealNext (m + 1))) := by
        rw [step_eq h.size]
        simp only [workerStep, hpc, hm, if_pos (Nat.succ_pos m)]
      have hpc₁ := goto_pc s i (.stealNext (m + 1))
      obtain ⟨s₂, hs₂, h₂, hpc₂⟩ := (h.goto (.stealNext (m + 1))).next hr hn hpc₁
      have hupTo : ∀ {ps s'}, StealPass i s₂ ps s' → StealPass i s ps s' := fun hpass =>
        .cons hs₁ (by rw [hpc]; rfl) (by simp [Worker.probe, hpc])
          (.cons hs₂ (by rw [hpc₁]; rfl) (by simp [Worker.probe, hpc₁]) hpass)
      have hseeks₂ : (s₂.worker i).pc.seeks = true := by rw [hpc₂]; rfl
      have hprobe₂ : (s₂.worker i).probe = [(r + 1) % n] := by
        simp only [Worker.probe, hpc₂, h₂.stealFrom]
      cases hqueue : c (.globalQueue ((r + 1) % n)) with
      | nil =>
          have hidle : busyIn c ((r + 1) % n) = false := by simp [busyIn, hqueue]
          obtain ⟨s₃, hs₃, h₃, hpc₃⟩ := h₂.pop_nil hpc₂ hqueue
          have hm₃ : pred32 (m + 1) = m := pred32_of_pos (Nat.succ_pos m) (by omega)
          obtain ⟨s', hpass, job, hjob, hsome⟩ := ih h₃ hr' hpc₃ hm₃ (by omega)
          have hprobes : probesOf (busyIn c) n (m + 1) r =
              (r + 1) % n :: probesOf (busyIn c) n m ((r + 1) % n) := by
            rw [probesOf, hidle]
            rfl
          rw [hprobes]
          refine ⟨s', hupTo ?_, job, hjob, ?_⟩
          · have hstep := StealPass.step hseeks₂ hs₃ hpass
            rwa [hprobe₂] at hstep
          · rw [hsome]
            simp [hidle]
      | cons job l =>
          have hbusy : busyIn c ((r + 1) % n) = true := by simp [busyIn, hqueue]
          obtain ⟨s₃, hs₃, hi₃, hpc₃⟩ := h₂.pop_cons hpc₂ hqueue
          have hs₄ := step_found hi₃ hpc₃
          have hstop : StealPass i s₃ [] (s₃.goto i (.execute (some job))) :=
            .stop hs₄ (by rw [hpc₃]; rfl) (by simp [Worker.probe, hpc₃]) (goto_pc s₃ i _) rfl
          have hprobes : probesOf (busyIn c) n (m + 1) r = [(r + 1) % n] := by
            rw [probesOf, hbusy]
            rfl
          rw [hprobes]
          refine ⟨s₃.goto i (.execute (some job)), hupTo ?_, some job, goto_pc s₃ i _, ?_⟩
          · have hstep := StealPass.step hseeks₂ hs₃ hstop
            rwa [hprobe₂] at hstep
          · simp [hbusy]

/-- A worker whose own queues are empty enters the loop. -/
theorem steal_pass (hn : n < 2 ^ 32) (h : Seeking i n c r s) (hr : r < n)
    (hpc : (s.worker i).pc = .popLocal) (hlocal : c (.localQueue i) = [])
    (hglobal : c (.globalQueue i) = []) :
    ∃ s', StealPass i s (probesOf (busyIn c) n (pred32 (pred32 n)) r) s' ∧
      s'.EndsWith i c (probesOf (busyIn c) n (pred32 (pred32 n)) r) := by
  -- three steps lead to the loop: both own queues are empty, and the count is read
  have hs₁ : step s (.work i) = some (s.goto i .popGlobal) := by
    rw [step_eq h.size]
    simp only [workerStep, hpc, JobQueue.pop, h.store.pop_nil hlocal]
    rfl
  have hpc₁ := goto_pc s i .popGlobal
  have h₁ := h.goto .popGlobal
  have hs₂ : step (s.goto i .popGlobal) (.work i) =
      some ((s.goto i .popGlobal).gotoVia i (.stealCount none) none) := by
    rw [step_eq h₁.size]
    simp only [workerStep, hpc₁, JobQueue.pop, h₁.store.pop_nil hglobal]
    rfl
  have h₂ := h₁.gotoVia (.stealCount none) none
  have hpc₂ := gotoVia_pc (s.goto i .popGlobal) i (.stealCount none) none
  have hs₃ : step ((s.goto i .popGlobal).gotoVia i (.stealCount none) none) (.work i) =
      some (((s.goto i .popGlobal).gotoVia i (.stealCount none) none).goto i
        (.stealTest none (pred32 n))) := by
    rw [step_eq h₂.size]
    simp only [workerStep, hpc₂, h₂.numThreads]
  have hlt : ∀ k, pred32 k < 2 ^ 32 := fun k => Nat.mod_lt _ (by decide)
  obtain ⟨s', hpass, hends⟩ := steal_loop hn (h₂.goto (.stealTest none (pred32 n))) hr
    (goto_pc _ i _) rfl (hlt (pred32 n))
  refine ⟨s', ?_, hends⟩
  exact .cons hs₁ (by rw [hpc]; rfl) (by simp [Worker.probe, hpc])
    (.cons hs₂ (by rw [hpc₁]; rfl) (by simp [Worker.probe, hpc₁])
      (.cons hs₃ (by rw [hpc₂]; rfl) (by simp [Worker.probe, hpc₂]) hpass))

/-! ## When a pass is complete -/

/-- What a pass of worker `i` should do: it makes one probe for each other worker at most, it gets
a job if there is one in the queue of another worker, and it has probed all of them if there is
none. -/
structure Complete (i n : Nat) (c : QueueId → List Addr) (ps : List Nat) (s' : State) : Prop where
  bound : ps.length ≤ n - 1
  obtains : (∃ k < n, k ≠ i ∧ c (.globalQueue k) ≠ []) →
    ∃ job, (s'.worker i).pc = .execute (some job)
  exhausts : (∀ k < n, k ≠ i → c (.globalQueue k) = []) → ∀ k < n, k ≠ i → ps.count k = 1

/-- With one worker the counter wraps around, so there is a probe, of the own queue. -/
theorem not_complete_one :
    ¬ Complete i 1 c (probesOf (busyIn c) 1 (pred32 (pred32 1)) r) s' := by
  intro hcomplete
  have hpos : 0 < pred32 (pred32 1) := by decide
  obtain ⟨m, hm⟩ := Nat.exists_eq_succ_of_ne_zero (Nat.pos_iff_ne_zero.mp hpos)
  have hbound := hcomplete.bound
  rw [hm, probesOf] at hbound
  simp at hbound

theorem attempts_eq (hn : 2 ≤ n) (hlt : n < 2 ^ 32) : pred32 (pred32 n) = n - 2 := by
  rw [pred32_of_pos (n := n) (by omega) (by omega), pred32_of_pos (by omega) (by omega)]
  omega

/-- **When a steal pass is complete.** Take a system of `n` workers and any contents of its queues.
Worker `i`, whose own queues are empty, looks for a job alone. It comes to an end, in one way, and
the pass is complete iff a global queue has a job that is neither the one at `steal_from` nor the
one before it. -/
theorem steal_pass_iff (hn : 0 < n) (hlt : n < 2 ^ 32) (hi : i < n) (hsize : n ≤ s.size)
    (hnum : s.numThreads = n) (hr : (s.worker i).stealFrom < n) (hc : s.store.Holds c)
    (hpc : (s.worker i).pc = .popLocal) (hlocal : c (.localQueue i) = [])
    (hglobal : c (.globalQueue i) = []) :
    (∃ ps s', StealPass i s ps s') ∧ ∀ ps s', StealPass i s ps s' →
      (Complete i n c ps s' ↔ ∃ k < n, k ≠ (s.worker i).stealFrom ∧
        (k + 1) % n ≠ (s.worker i).stealFrom ∧ c (.globalQueue k) ≠ []) := by
  have hseek : Seeking i n c (s.worker i).stealFrom s := ⟨by omega, hnum, hc, rfl⟩
  obtain ⟨s₁, hpass, job, hjob, hsome⟩ := steal_pass hlt hseek hr hpc hlocal hglobal
  refine ⟨⟨_, s₁, hpass⟩, fun ps s' hpass' => ?_⟩
  obtain ⟨rfl, rfl⟩ := hpass.unique hpass'
  rcases Nat.lt_or_ge n 2 with hone | htwo
  · -- there is only one worker
    obtain rfl : n = 1 := by omega
    refine iff_of_false not_complete_one ?_
    rintro ⟨k, hk, hne, -⟩
    omega
  · have hothers : ∀ k < n, c (.globalQueue k) ≠ [] → k ≠ i := by
      rintro k - hk rfl
      exact hk hglobal
    rw [attempts_eq htwo hlt] at hpass hsome ⊢
    rw [exists_busy_iff] at hsome
    -- the queues that the pass probes
    have hprobed : (∃ k < n - 2, busyIn c (((s.worker i).stealFrom + 1 + k) % n) = true) ↔
        ∃ k < n, k ≠ (s.worker i).stealFrom ∧ (k + 1) % n ≠ (s.worker i).stealFrom ∧
          c (.globalQueue k) ≠ [] := by
      constructor
      case mp =>
        rintro ⟨k, hk, hbusy⟩
        have hlt' : ((s.worker i).stealFrom + 1 + k) % n < n := Nat.mod_lt _ hn
        obtain ⟨hne, hne'⟩ := (exists_offset hr hlt').mp ⟨k, hk, rfl⟩
        exact ⟨_, hlt', hne, hne', busyIn_iff.mp hbusy⟩
      case mpr =>
        rintro ⟨x, hx, hne, hne', hbusy⟩
        obtain ⟨k, hk, rfl⟩ := (exists_offset hr hx).mpr ⟨hne, hne'⟩
        exact ⟨k, hk, busyIn_iff.mpr hbusy⟩
    rw [hprobed] at hsome
    constructor
    case mpr =>
      intro hcond
      obtain ⟨job, rfl⟩ := Option.isSome_iff_exists.mp (hsome.mpr hcond)
      refine ⟨Nat.le_trans probesOf_length_le (by omega), fun _ => ⟨job, hjob⟩, fun hempty => ?_⟩
      obtain ⟨k, hk, -, -, hbusy⟩ := hcond
      exact absurd (hempty k hk (hothers k hk hbusy)) hbusy
    case mp =>
      intro hcomplete
      by_cases hbusy : ∃ k < n, k ≠ i ∧ c (.globalQueue k) ≠ []
      · obtain ⟨job', hjob'⟩ := hcomplete.obtains hbusy
        have hjj : Pc.execute job = .execute (some job') := hjob.symm.trans hjob'
        exact hsome.mp (by rw [Pc.execute.inj hjj]; rfl)
      · -- one of the two queues that are not probed belongs to another worker
        push Not at hbusy
        obtain ⟨x, hx, hxi, hxr⟩ : ∃ x < n, x ≠ i ∧
            (x = (s.worker i).stealFrom ∨ (x + 1) % n = (s.worker i).stealFrom) := by
          by_cases hri : (s.worker i).stealFrom = i
          · by_cases hzero : i = 0
            · refine ⟨n - 1, by omega, by omega, Or.inr ?_⟩
              rw [show n - 1 + 1 = n by omega, Nat.mod_self, hri, hzero]
            · refine ⟨i - 1, by omega, by omega, Or.inr ?_⟩
              rw [show i - 1 + 1 = i by omega, Nat.mod_eq_of_lt hi, hri]
          · exact ⟨_, hr, hri, Or.inl rfl⟩
        have hcount := hcomplete.exhausts hbusy x hx hxi
        have hmem := List.count_pos_iff.mp (by rw [hcount]; exact Nat.one_pos)
        obtain ⟨hne, hne'⟩ := (exists_offset hr hx).mp (mem_probesOf hmem)
        exact absurd hxr (not_or.mpr ⟨hne, hne'⟩)

/-! ## Two systems -/

/-- Worker `0` of `n` workers looks for a job; the queue `k` has one. -/
def seekingOne (n k r : Nat) : State :=
  { init n with
    store := (init n).store.push (.globalQueue k) 7
    worker := Function.update (init n).worker 0 { pc := .popLocal, stealFrom := r } }

theorem seekingOne_holds (n k r : Nat) : (seekingOne n k r).store.Holds
    (Function.update (fun _ => []) (.globalQueue k) [7]) :=
  (Store.empty_holds _).push fun _ => List.not_mem_nil

/-- Of three workers, the one whose queue comes after `steal_from` has a job. -/
theorem steal_pass_iff_three : ∃ ps s', StealPass 0 (seekingOne 3 2 1) ps s' ∧
    Complete 0 3 (Function.update (fun _ => []) (.globalQueue 2) [7]) ps s' := by
  obtain ⟨⟨ps, s', hpass⟩, hiff⟩ := steal_pass_iff (i := 0) (by decide) (by decide) (by decide)
    (le_refl 3) rfl (by decide) (seekingOne_holds 3 2 1) rfl (by decide) (by decide)
  exact ⟨ps, s', hpass, (hiff ps s' hpass).mpr ⟨2, by decide, by decide, by decide, by decide⟩⟩

/-- Of two workers, the other one has a job, which worker `0` does not find: it makes no probe. -/
theorem not_steal_complete : ∃ s', StealPass 0 (seekingOne 2 1 1) [] s' ∧
    ¬ Complete 0 2 (Function.update (fun _ => []) (.globalQueue 1) [7]) [] s' := by
  have hseek : Seeking 0 2 (Function.update (fun _ => []) (.globalQueue 1) [7]) 1
      (seekingOne 2 1 1) := ⟨by decide, rfl, seekingOne_holds 2 1 1, rfl⟩
  obtain ⟨s', hpass, job, hjob, hsome⟩ :=
    steal_pass (by decide) hseek (by decide) rfl (by decide) (by decide)
  have hnone : pred32 (pred32 2) = 0 := by decide
  rw [hnone] at hpass hsome
  refine ⟨s', hpass, fun hcomplete => ?_⟩
  obtain ⟨job', hjob'⟩ := hcomplete.obtains ⟨1, by decide, by decide, by decide⟩
  have hjj : Pc.execute job = .execute (some job') := hjob.symm.trans hjob'
  obtain ⟨k, hk, -⟩ := hsome.mp (by rw [Pc.execute.inj hjj]; rfl)
  cases hk

end Bop.JobSystem
