import Bop.JobSystem.Liveness
import Mathlib.Logic.Relation

set_option autoImplicit false

/-! # Waiting for a job

`Job::wait` polls `m_NumChildren` through a reference that `schedule` or `Job::then` returned. The
storage may be used again for another job in the meantime, so that a poll reads the counter of a
job that the caller never heard of (`JobSystem/Handles.lean`). In runs without parents this does
no harm: `wait_sound` says that `wait` does not return before the work was executed, and
`wait_returns` that it does return when the threads get their turns.
-/

namespace Bop.JobSystem

open Transition (play played eq_of_played)

variable {s s' : State} {x : Action} {n : Nat} {v w : Work} {c : Addr}

/-- The job of `w` was made in the storage `c`, which is what references to it refer to. -/
def State.MadeIn (s : State) (w : Work) (c : Addr) : Prop :=
  ∃ parent threadIndex, .constructed w c parent threadIndex ∈ s.log

/-- The work `w` was attached to `v`, or to a work that was attached to `v`, .. -/
def State.Behind (s : State) (v w : Work) : Prop :=
  Relation.TransGen (fun v w => .attached v w ∈ s.log) v w

/-- The invariant of the runs without parents: a storage holds the job that was made in it until
that job is recycled, as long as no worker cleans up. -/
structure Held (s : State) : Prop where
  served : Served s
  handled : s.shutdown = false → ∀ w c, s.MadeIn w c →
    c ∈ s.live ∧ ((s.jobs c).work = w ∨ .recycled ∈ trail s.log w)

theorem held_init (n : Nat) : Held (init n) :=
  ⟨served_init n, fun _ w c hc => by simp [State.MadeIn, init] at hc⟩

theorem Held.step (h : Held s) (hx : x.Parentless) (hs : step s x = some s') : Held s' := by
  obtain ⟨place, hv, ho, -⟩ := h.served.ledger
  refine ⟨h.served.step hx hs, fun hrun => ?_⟩
  have hrun₀ : s.shutdown = false := (not_left_step hs hrun h.served.inside).1
  have hhandled : (s.ledger place).Handled := fun {w a p ti} hc => h.handled hrun₀ w a ⟨p, ti, hc⟩
  have hnext : ∀ {place'}, (s'.ledger place').Handled →
      ∀ w c, s'.MadeIn w c → c ∈ s'.live ∧ ((s'.jobs c).work = w ∨ .recycled ∈ trail s'.log w) := by
    rintro place' hh w c ⟨p, ti, hc⟩
    exact hh hc
  cases step_simulated hv ho (h.served.rootless.noneToTell x) (Policy.any_admits s x) hs with
  | stutter hv' hl => exact hnext (hl ▸ hhandled)
  | move hv' hm => exact hnext (hm.handled ho hhandled)
  | free _ _ hpc => exact (h.served.not_cleaning hrun₀ (Or.inl hpc)).elim
  | clear _ _ hpc => exact (h.served.not_cleaning hrun₀ (Or.inr hpc)).elim

/-- **Zero means executed.** -/
theorem Held.finished (h : Held s) (hrun : s.shutdown = false) (hc : s.MadeIn w c)
    (hpoll : (s.jobs c).unfinished = false) : .finished w ∈ s.log := by
  obtain ⟨place, -, ho, -⟩ := h.served.ledger
  have hval := ho.valid
  obtain ⟨hl, hw | hrecycled⟩ := h.handled hrun w c hc
  · have hzero : (s.jobs c).numChildren = 0 := by simpa [Job.unfinished] using hpoll
    have hoff : .countedOff ∈ trail s.log (s.jobs c).work := by
      by_contra hoff
      rw [show (s.jobs c).numChildren = 1 from hval.counter_one hl hoff] at hzero
      cases hzero
    exact finished_iff.mp (hw ▸ hval.mem_trail_of_le hoff (by decide))
  · exact finished_iff.mp (hval.mem_trail_of_le hrecycled (by decide))

/-- A work that was executed had all works in front of it executed before. -/
theorem State.ContinuationsFollow.finished (h : s.ContinuationsFollow)
    (hstarted : ∀ {w}, .finished w ∈ s.log → ∃ i v, .started w i v ∈ s.log)
    (hw : .finished w ∈ s.log) (hvw : s.Behind v w) : .finished v ∈ s.log := by
  have hfront : ∀ {v w}, .attached v w ∈ s.log → .finished w ∈ s.log → .finished v ∈ s.log := by
    intro v w hatt hfin
    obtain ⟨i, u, hst⟩ := hstarted hfin
    exact (h.after hatt hst).2
  induction hvw with
  | single hatt => exact hfront hatt hw
  | tail _ hatt ih => exact ih (hfront hatt hw)

/-- **`Job::wait` does not return too early.** Take a run without parents and without a request to
shut down. When a poll through the reference to the job of `w` reads zero, whatever job is in the
storage now, `w` was executed; and if the continuations were written in time, so were all works
that `w` was attached to. -/
theorem wait_sound {tr : List (State × Action)} (h : Transition.Run step (init n) tr s)
    (hx : ∀ p ∈ tr, p.2.Parentless) (hrun : s.shutdown = false) (hc : s.MadeIn w c)
    (hpoll : (s.jobs c).unfinished = false) :
    .finished w ∈ s.log ∧
      ((∀ p ∈ tr, p.1.InTime p.2) → ∀ v, s.Behind v w → .finished v ∈ s.log) := by
  have hheld : Held s := h.invariant (C := fun _ x => x.Parentless) (held_init n)
    (fun hI hx hs => hI.step hx hs) hx
  have hfin := hheld.finished hrun hc hpoll
  refine ⟨hfin, fun ht v hv => ?_⟩
  obtain ⟨place, -, ho, -⟩ := hheld.served.ledger
  have htimely : Timely s := h.invariant (C := fun s x => s.NoneToTell x ∧ s.InTime x)
    (timely_init n) (fun hI hC hs => hI.step hC.1 hC.2 hs)
    (fun p hp => ⟨run_noneToTell h hx p hp, ht p hp⟩)
  refine htimely.continuationsFollow.finished (fun {u} hu => ?_) hfin hv
  exact started_iff.mp (ho.valid.mem_trail_of_le (finished_iff.mpr hu) (by decide))

/-- A client attaches a work to the continuation of its job, waits for that one, and finds all
three works executed. -/
theorem wait_sound_chain : ∃ tr s, Transition.Run step (init 1) tr s ∧ s.MadeIn 3 9 ∧
    (s.jobs 9).unfinished = false ∧ .finished 3 ∈ s.log ∧ .finished 1 ∈ s.log := by
  have hexec : ((Transition.exec step (fun s x => x.Parentless ∧ s.InTime x) (init 1)
      ([Action.schedule (.client 0) none none 7, .call (.client 0), .call (.client 0),
        .call (.client 0), .jobThen (.client 0) 1 7 none 8, .call (.client 0), .call (.client 0),
        .jobThen (.client 0) 2 8 none 9, .call (.client 0), .call (.client 0)] ++
        List.replicate 10 (.work 0) ++ [Action.finish 0] ++ List.replicate 7 (.work 0) ++
        [Action.finish 0] ++ List.replicate 7 (.work 0) ++ [Action.finish 0] ++
        List.replicate 4 (.work 0))).any fun s =>
      decide (s.shutdown = false ∧ .constructed 3 9 none none ∈ s.log ∧ .attached 1 2 ∈ s.log ∧
        .attached 2 3 ∈ s.log ∧ (s.jobs 9).unfinished = false)) = true := by decide
  obtain ⟨tr, s, hrun, -, hx, hs⟩ := Transition.exists_run_of_exec hexec
  obtain ⟨hsd, hc, h12, h23, hpoll⟩ := of_decide_eq_true hs
  obtain ⟨hfin, hall⟩ := wait_sound hrun (fun p hp => (hx p hp).1) hsd ⟨none, none, hc⟩ hpoll
  exact ⟨tr, s, hrun, ⟨none, none, hc⟩, hpoll, hfin,
    hall (fun p hp => (hx p hp).2) 1 (.tail (.single h12) h23)⟩

variable {x : Nat → State} {a : Nat → Option Action}

/-- **`Job::wait` returns.** Take a fair run of `n` workers without parents and without a shutdown,
in which the continuations are written in time. From some time on every poll through every
reference reads zero, and the works of these references were executed. -/
theorem wait_returns (hn : 0 < n) (hlt : n < 2 ^ 32) (h : FairRun n x a)
    (hrun : ∀ k, (x k).shutdown = false) (htime : ∀ j b, a j = some b → (x j).InTime b) :
    ∃ K, ∀ k ≥ K, ∀ w c, (x k).MadeIn w c →
      ((x k).jobs c).unfinished = false ∧ .finished w ∈ (x k).log := by
  obtain ⟨K, hK⟩ := h.settles
  refine ⟨K, fun k hk w c hc => ?_⟩
  have hquiet : (x k).Quiescent :=
    ⟨hrun k, fun q hq c => h.no_linked hn hlt hK hrun hq k hk, h.no_current hn hlt hK k hk,
      fun t => h.calls hK k hk⟩
  have hheld : Held (x k) := h.behaviour.invariant (C := fun _ b => b.Parentless) (held_init n)
    (fun hI hx hs => hI.step hx hs) h.parentless k
  have htimely : Timely (x k) :=
    h.behaviour.invariant (C := fun s b => s.NoneToTell b ∧ s.InTime b) (timely_init n)
      (fun hI hC hs => hI.step hC.1 hC.2 hs)
      (fun j b hb => ⟨(h.served j).rootless.noneToTell b, htime j b hb⟩) k
  obtain ⟨place, -, ho, -⟩ := hheld.served.ledger
  have hval := ho.valid
  obtain ⟨hl, -⟩ := hheld.handled (hrun k) w c hc
  -- the job that is in the storage now was recycled
  have hrecycled := htimely.recycled hquiet _ (hval.work_pos hl) (hval.work_lt hl)
  have hzero : ((x k).jobs c).numChildren = 0 :=
    hval.counter_zero hl (hval.mem_trail_of_le hrecycled (by decide))
  have hpoll : ((x k).jobs c).unfinished = false := by simp [Job.unfinished, hzero]
  exact ⟨hpoll, hheld.finished (hrun k) hc hpoll⟩

/-- The client schedules a job and attaches a work to it at once. -/
def twoJobs : List Action :=
  [.schedule (.client 0) none none 7, .call (.client 0), .call (.client 0), .call (.client 0),
    .jobThen (.client 0) 1 7 none 8, .call (.client 0), .call (.client 0)]

/-- Nobody is about to write a continuation. -/
theorem inTime_of_noAttach (h : ∀ t b of a, s.call t ≠ .attach b of a) (x : Action) :
    s.InTime x := by
  cases x with
  | call t =>
      show (s.call t).InTime s
      cases hc : s.call t with
      | attach b of a => exact absurd hc (h t b of a)
      | _ => trivial
  | _ => trivial

theorem wait_returns_two : ∃ x a, FairRun 1 x a ∧ (x 7).MadeIn 2 8 ∧
    ∃ K, ∀ k ≥ K, ((x k).jobs 8).unfinished = false ∧ .finished 2 ∈ (x k).log := by
  have hfair := turns_fairRun (l := twoJobs) (by decide)
  have hkind : ∀ k, (turns twoJobs k).NoShutdown ∧ (k ≥ 7 → (turns twoJobs k).NoThen) := by
    intro k
    rcases turns_cases twoJobs k with ⟨hk, hmem⟩ | hk | hk | hk
    · exact ⟨(by decide : ∀ b ∈ twoJobs, b.NoShutdown) _ hmem,
        fun h7 => absurd hk (Nat.not_lt.mpr h7)⟩
    · exact ⟨hk ▸ trivial, fun _ => hk ▸ trivial⟩
    · exact ⟨hk ▸ trivial, fun _ => hk ▸ trivial⟩
    · exact ⟨hk ▸ trivial, fun _ => hk ▸ trivial⟩
  have hrun := hfair.behaviour.invariant (I := fun s => s.shutdown = false)
    (C := fun _ b => b.NoShutdown) rfl (fun hI hC hs => (step_noShutdown hC hs).trans hI)
    fun k b hb => by
      rw [eq_of_played hb]
      exact (hkind k).1
  -- the continuation is written within the first seven steps
  have hnone : ∀ k ≥ 7, ∀ t b of a,
      (play step (init 1) (turns twoJobs) k).call t ≠ .attach b of a := by
    refine hfair.behaviour.stays (I := fun s => ∀ t b of a, s.call t ≠ .attach b of a) ?_ ?_
    · intro t b of a
      by_cases ht : t = .client 0
      · rw [ht, (by decide : (play step (init 1) (turns twoJobs) 7).call (.client 0) = .idle)]
        simp
      · rw [turns_idle (by decide) ht]
        simp
    · intro k hk b hb hs hI
      rw [eq_of_played hb] at hs
      exact noAttach_step ((hkind k).2 hk) hI hs
  have hfirst : ∀ k < 7, (play step (init 1) (turns twoJobs) k).InTime (turns twoJobs k) := by
    decide
  have htime : ∀ k b, played step (init 1) (turns twoJobs) k = some b →
      (play step (init 1) (turns twoJobs) k).InTime b := by
    intro k b hb
    by_cases hk : k < 7
    · rw [eq_of_played hb]
      exact hfirst k hk
    · exact inTime_of_noAttach (hnone k (Nat.not_lt.mp hk)) b
  have hmade : .constructed 2 8 none none ∈ (play step (init 1) (turns twoJobs) 7).log := by decide
  have hmono := hfair.behaviour.stays (I := fun s => .constructed 2 8 none none ∈ s.log) hmade
    (fun _ _ _ _ hs hI => step_log hs hI)
  obtain ⟨K, hK⟩ := wait_returns (by decide) (by decide) hfair hrun htime
  refine ⟨_, _, hfair, ⟨none, none, hmade⟩, max K 7, fun k hk => ?_⟩
  exact hK k ((le_max_left K 7).trans hk) 2 8 ⟨none, none, hmono k ((le_max_right K 7).trans hk)⟩

end Bop.JobSystem
