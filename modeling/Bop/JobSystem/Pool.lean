import Bop.JobSystem.Ownership
import Bop.JobSystem.Shutdown

set_option autoImplicit false

/-! # The job pool

"The system owns the actual jobs, and takes care of memory management as needed": `create_job`
takes a storage from the memory resource where its thread has none to use again, and
`deallocate_job_queue` returns those that a worker finds in its queues and bins. The job in a
storage is never destroyed (`destroy` is commented out in `deallocate_job_queue`), so what its
`m_Work` owns is lost with every job.

* `pool_balanced`: no storage is returned twice, and the ones that were not returned are those
  still live.
* `pool_conserved_iff`: all jobs are destroyed and returned only where there are none.
-/

namespace Bop.JobSystem

/-- **Nothing leaked, nothing freed twice**: as often as a storage was allocated, the job in it
was destroyed and the storage returned. -/
def State.PoolConserved (s : State) : Prop :=
  ∀ a, s.log.count (.destroyed a) = s.log.count (.allocated a) ∧
    s.log.count (.deallocated a) = s.log.count (.allocated a)

/-- The action makes a job. -/
def Action.makes : Action → Bool
  | .schedule _ _ _ _ | .jobThen _ _ _ _ _ => true
  | .call _ | .shutdown _ | .finish _ | .work _ => false

/-! ## The balance of the storages -/

section Balanced

variable {n : Nat} {P : Policy}
variable {L L' L₁ : Ledger} {a b : Addr} {e : Event}

/-- A storage was returned as often as it was allocated, up to the time it is live now. -/
def Ledger.Balanced (L : Ledger) : Prop :=
  ∀ a, L.log.count (.allocated a) = L.log.count (.deallocated a) + if a ∈ L.live then 1 else 0

theorem count_append_stores {es log : List Event} (h : ∀ e ∈ es, e.stores = false)
    (he : e.stores = true) : (es ++ log).count e = log.count e := by
  have hno : e ∉ es := fun hmem => by
    rw [h e hmem] at he
    cases he
  rw [List.count_append, List.count_eq_zero_of_not_mem hno, Nat.zero_add]

theorem Ledger.Balanced.keeps (h : L.Balanced) (hk : L.Keeps L') : L'.Balanced := by
  obtain ⟨es, hes, hno⟩ := hk.log
  intro a
  rw [hes, hk.live, count_append_stores hno rfl, count_append_stores hno rfl]
  exact h a

theorem Ledger.Balanced.construct {t : Tid} {c : Call} {o : Origin} (h : L.Balanced)
    (ho : L.InOrder) (hb : L.Before a L₁) : (L₁.construct a (.call t c) o).Balanced := by
  intro x
  rcases hb with ⟨⟨u, hu⟩, rfl⟩ | ⟨hu, rfl⟩
  · have hla : a ∈ L₁.live := ho.valid.live hu
    simpa [Ledger.construct, hla] using h x
  · have hx := h x
    by_cases hxa : x = a
    · subst hxa
      rw [if_neg hu] at hx
      simp [Ledger.construct, Ledger.record, hu, hx]
    · have hne : (Event.allocated a == .allocated x) = false := by simp [Ne.symm hxa]
      simpa [Ledger.construct, Ledger.record, hu, hxa, List.count_cons, hne] using hx

theorem Move.balanced (hm : Move n P L L') (ho : L.InOrder) (h : L.Balanced) :
    L'.Balanced := by
  rcases hm.keeps with hk | ⟨a, t, c, o, L₁, hb, -, rfl⟩
  · exact h.keeps hk
  · exact h.construct ho hb

theorem Ledger.Balanced.free (h : L.Balanced) (hv : L.Valid) (ha : a ∈ L.live) :
    (L.free a).Balanced := by
  intro x
  have hx := h x
  have hmem : x ∈ L.live.erase a ↔ x ≠ a ∧ x ∈ L.live := hv.nodup.mem_erase_iff
  by_cases hxa : x = a
  · subst hxa
    rw [if_pos ha] at hx
    simpa [Ledger.free, hmem] using hx
  · have hne : (Event.deallocated a == .deallocated x) = false := by simp [Ne.symm hxa]
    simpa [Ledger.free, hmem, hxa, List.count_cons, hne] using hx

theorem Ledger.Keeps.clear {q : QueueId} (he : e.Note L) :
    L.Keeps ((L.drop fun p => p = .queue q).record e) := by
  refine ⟨rfl, fun _ => rfl, fun _ => rfl, fun _ => rfl, rfl, [e], rfl, fun e' he' => ?_⟩
  rw [List.mem_singleton.mp he']
  cases e <;> first | rfl | exact he.elim

end Balanced

section Claims

variable {s s' : State} {x : Action} {n : Nat} {tr : List (State × Action)} {a : Addr}

/-- The invariant of the runs without parents. -/
def Balanced (s : State) : Prop :=
  ∃ place, Views s place ∧ (s.ledger place).InOrder ∧ (s.ledger place).Balanced

theorem Balanced.step (h : Balanced s) (hx : s.NoneToTell x) (hs : step s x = some s') :
    Balanced s' := by
  obtain ⟨place, hv, ho, hb⟩ := h
  have hsim := step_simulated hv ho hx (Policy.any_admits s x) hs
  cases hsim with
  | stutter hv' hl => exact ⟨_, hv', hl ▸ ho, hl ▸ hb⟩
  | move hv' hm => exact ⟨_, hv', hm.inOrder ho, hm.balanced ho hb⟩
  | free hv' _ _ ha hl => exact ⟨_, hv', hl ▸ ho.free ha, hl ▸ hb.free ho.valid (ho.valid.live ha)⟩
  | clear hv' _ _ he hl => exact ⟨_, hv', hl ▸ ho.clear he, hl ▸ hb.keeps (Ledger.Keeps.clear he)⟩

/-- **The balance of the storages.** As long as no job has a parent, a storage is returned once
at most for each time it was allocated, and it is leaked at the end iff it is still live. -/
theorem pool_balanced (h : Transition.Run step (init n) tr s)
    (hx : ∀ p ∈ tr, p.2.Parentless) (a : Addr) :
    s.log.count (.allocated a) =
      s.log.count (.deallocated a) + if a ∈ s.live then 1 else 0 := by
  have hinit : Balanced (init n) :=
    ⟨_, views_init n, inOrder_init n, fun a => by simp [State.ledger, init]⟩
  obtain ⟨place, -, -, hb⟩ :=
    h.invariant (C := fun s x => s.NoneToTell x) hinit Balanced.step (run_noneToTell h hx)
  exact hb a

/-! ## Where there are no jobs -/

/-- The memory resource was not used. -/
def Untouched (s : State) : Prop :=
  ∃ place, Views s place ∧ (s.ledger place).InOrder ∧ s.live = [] ∧
    ∀ e ∈ s.log, e.stores = false

theorem untouched_init (n : Nat) : Untouched (init n) :=
  ⟨_, views_init n, inOrder_init n, rfl, fun e he => by cases he⟩

theorem Untouched.keeps {place place' : Addr → Option Place} (hl : s.live = [])
    (hno : ∀ e ∈ s.log, e.stores = false) (hk : (s.ledger place).Keeps (s'.ledger place')) :
    s'.live = [] ∧ ∀ e ∈ s'.log, e.stores = false := by
  refine ⟨hk.live.trans hl, fun e he => ?_⟩
  obtain ⟨es, hes, hnew⟩ := hk.log
  rw [show s'.log = es ++ s.log from hes] at he
  rcases List.mem_append.mp he with he | he
  · exact hnew e he
  · exact hno e he

theorem Untouched.step (h : Untouched s) (hx : x.makes = false) (hs : step s x = some s') :
    Untouched s' := by
  obtain ⟨place, hv, ho, hl, hno⟩ := h
  have htell : s.NoneToTell x := by
    cases x with
    | work i =>
        intro a ha
        obtain ⟨k, hcur⟩ := Pc.current_of_tells ha
        have hla : a ∈ s.live := ho.valid.live ((hv.run i a k _).mp ⟨hcur, rfl⟩)
        rw [hl] at hla
        cases hla
    | _ => trivial
  have hnext : s'.nextWork = s.nextWork := by
    refine step_nextWork (fun t p ti f hxs => ?_) (fun t w b ti f hxs => ?_) hs
    · rw [hxs] at hx
      cases hx
    · rw [hxs] at hx
      cases hx
  have hsim := step_simulated hv ho htell (Policy.any_admits s x) hs
  cases hsim with
  | @stutter hv' heq =>
      have hlive : s'.live = s.live := congrArg Ledger.live heq
      have hlog : s'.log = s.log := congrArg Ledger.log heq
      exact ⟨_, hv', heq ▸ ho, hlive.trans hl, hlog ▸ hno⟩
  | @move place' hv' hm =>
      rcases hm.keeps with hk | ⟨b, t, c, o, L₁, hb, -, heq⟩
      · exact ⟨_, hv', hm.inOrder ho, Untouched.keeps hl hno hk⟩
      · -- a job would have been made
        have hsucc : s'.nextWork = L₁.nextWork + 1 := congrArg Ledger.nextWork heq
        have hsame : L₁.nextWork = s.nextWork := by rcases hb with ⟨-, rfl⟩ | ⟨-, rfl⟩ <;> rfl
        rw [hsucc, hsame] at hnext
        exact absurd hnext (Nat.succ_ne_self _)
  | free _ _ _ ha _ =>
      have hla : _ ∈ s.live := ho.valid.live ha
      rw [hl] at hla
      cases hla
  | @clear place' i r e hv' _ _ he heq =>
      have hk : (s.ledger place).Keeps (s'.ledger place') := heq ▸ Ledger.Keeps.clear he
      exact ⟨_, hv', heq ▸ ho.clear he, Untouched.keeps hl hno hk⟩

/-- The first job is made in a new storage. -/
theorem Untouched.construct (h : Untouched s) (t : Tid) (parent : Option Addr)
    (ti : Option Nat) (fresh : Addr) :
    .allocated fresh ∈ (construct s t parent ti fresh).1.log := by
  obtain ⟨place, hv, ho, hl, -⟩ := h
  rcases construct_cases s t parent ti fresh with ⟨b, st, hpop, -⟩ | ⟨st, -, hcon⟩
  · have hb : b ∈ s.live := ho.valid.live (hv.popped hpop)
    rw [hl] at hb
    cases hb
  · rw [hcon]
    exact List.mem_cons_of_mem _ List.mem_cons_self

theorem Untouched.make (h : Untouched s) (hx : x.makes = true)
    (hs : JobSystem.step s x = some s') : ∃ a, .allocated a ∈ s'.log := by
  cases x with
  | schedule t parent ti fresh =>
      obtain ⟨-, -, -, rfl⟩ := step_schedule hs
      exact ⟨fresh, h.construct t (parent.map Prod.snd) ti fresh⟩
  | jobThen t of job ti fresh =>
      obtain ⟨-, -, -, rfl⟩ := step_jobThen hs
      exact ⟨fresh, h.construct t none ti fresh⟩
  | _ => cases hx

/-- A run in which a job was made has allocated a storage. -/
theorem run_allocated (h : Transition.Run step (init n) tr s) :
    (∃ a, .allocated a ∈ s.log) ∨ ((∀ p ∈ tr, p.2.makes = false) ∧ Untouched s) := by
  induction h with
  | nil => exact Or.inr ⟨fun p hp => absurd hp List.not_mem_nil, untouched_init n⟩
  | @snoc tr s s' x hrun hs ih =>
      rcases ih with ⟨a, ha⟩ | ⟨hall, hun⟩
      · exact Or.inl ⟨a, step_log hs ha⟩
      · cases hx : x.makes with
        | true => exact Or.inl (hun.make hx hs)
        | false =>
            refine Or.inr ⟨fun p hp => ?_, hun.step hx hs⟩
            rcases List.mem_cons.mp hp with rfl | hp
            · exact hx
            · exact hall p hp

theorem not_destroyed (h : Transition.Run step (init n) tr s) (a : Addr) :
    .destroyed a ∉ s.log := by
  refine h.invariant (I := fun s => .destroyed a ∉ s.log) (C := fun _ _ => True)
    List.not_mem_nil (fun hI _ hs hd => hI (step_destroyed hs hd)) (fun _ _ => trivial)

/-- **When the pool is conserved.** In a state of a run, such as the one in which
`wait_for_shutdown` returns, each storage that was allocated has had its job destroyed and was
returned iff no job was made at all: nothing destroys a job. -/
theorem pool_conserved_iff (h : Transition.Run step (init n) tr s) :
    s.PoolConserved ↔ ∀ p ∈ tr, p.2.makes = false := by
  constructor
  · intro hcons
    rcases run_allocated h with ⟨a, ha⟩ | ⟨hall, -⟩
    · have hcount := (hcons a).1
      rw [List.count_eq_zero_of_not_mem (not_destroyed h a)] at hcount
      exact absurd hcount.symm (List.count_pos_iff.mpr ha).ne'
    · exact hall
  · intro hall a
    have hun : Untouched s :=
      h.invariant (C := fun _ x => x.makes = false) (untouched_init n) Untouched.step hall
    obtain ⟨-, -, -, -, hno⟩ := hun
    have hzero : ∀ {e : Event}, e.stores = true → s.log.count e = 0 := by
      intro e he
      refine List.count_eq_zero_of_not_mem fun hmem => ?_
      rw [hno e hmem] at he
      cases he
    rw [hzero rfl, hzero rfl, hzero rfl]
    exact ⟨rfl, rfl⟩

/-- The worker is shut down before anything was scheduled. -/
theorem pool_conserved_iff_idle : ∃ tr s, Transition.Run step (init 1) tr s ∧
    s.waiting = false ∧ s.PoolConserved := by
  have hexec : ((Transition.exec step (fun _ x => x.makes = false) (init 1)
      (.shutdown (.client 0) :: List.replicate 16 (.work 0))).any fun s =>
      decide (s.waiting = false)) = true := by decide
  obtain ⟨tr, s, hrun, -, hx, hs⟩ := Transition.exists_run_of_exec hexec
  exact ⟨tr, s, hrun, of_decide_eq_true hs, (pool_conserved_iff hrun).mpr hx⟩

/-- **Counterexample.** A client schedules a job, attaches a continuation to it and requests the
shutdown before the worker looks into its queue. When `wait_for_shutdown` returns, the storage of
the job was returned with its `m_Work` still alive, and the continuation is still allocated. -/
theorem not_pool_conserved : ∃ tr s, Transition.Run step (init 1) tr s ∧ s.waiting = false ∧
    .deallocated 7 ∈ s.log ∧ .destroyed 7 ∉ s.log ∧
    .allocated 8 ∈ s.log ∧ .deallocated 8 ∉ s.log ∧ ¬ s.PoolConserved := by
  have hexec : ((Transition.exec step (fun _ _ => True) (init 1)
      ([Action.schedule (.client 0) none none 7, .call (.client 0), .call (.client 0),
        .call (.client 0), .jobThen (.client 0) 1 7 none 8, .call (.client 0),
        .call (.client 0), .shutdown (.client 0)] ++ List.replicate 17 (.work 0))).any fun s =>
      decide (s.waiting = false ∧ .deallocated 7 ∈ s.log ∧ .destroyed 7 ∉ s.log ∧
        .allocated 8 ∈ s.log ∧ .deallocated 8 ∉ s.log)) = true := by decide
  obtain ⟨tr, s, hrun, -, -, hs⟩ := Transition.exists_run_of_exec hexec
  obtain ⟨hwait, h7, hd7, h8, hd8⟩ := of_decide_eq_true hs
  refine ⟨tr, s, hrun, hwait, h7, hd7, h8, hd8, fun hcons => ?_⟩
  have hcount := (hcons 8).2
  rw [List.count_eq_zero_of_not_mem hd8] at hcount
  exact absurd hcount.symm (List.count_pos_iff.mpr h8).ne'

end Claims

end Bop.JobSystem
