import Bop.JobSystem.Accounting
import Bop.JobSystem.Affinity

set_option autoImplicit false

/-! # Waiting for ever

`Job::wait` polls until the job is completed; as its comment says, careless use may result in
infinite waiting. A work that waits keeps its worker, and only a worker takes jobs out of the
queues. So a job is stuck when all workers that take jobs out of its queue wait, and the jobs that
are attached to a stuck one are stuck with it. `wait_deadlock` says that works that wait for stuck
jobs wait for ever, whatever the other threads do.
-/

namespace Bop.JobSystem

/-! ## Stuck jobs -/

/-- The worker `i` takes jobs out of the queue, its own or one that it steals from. -/
def QueueId.TakenBy (i : Nat) : QueueId → Prop
  | .localQueue j => j = i
  | .globalQueue _ => True
  | .recyclingBin _ | .garbageBin _ => False

instance (i : Nat) : DecidablePred (QueueId.TakenBy i)
  | .localQueue j => inferInstanceAs (Decidable (j = i))
  | .globalQueue _ => .isTrue trivial
  | .recyclingBin _ | .garbageBin _ => .isFalse id

/-- The workers that take jobs out of the queue wait for jobs themselves; `await` has the job that
a worker waits for. -/
def State.Closed (s : State) (await : Nat → Option Addr) (q : QueueId) : Prop :=
  q.isBin = false ∧ ∀ i < s.size, q.TakenBy i → (await i).isSome = true

instance (s : State) (await : Nat → Option Addr) : DecidablePred (s.Closed await) :=
  fun _ => inferInstanceAs (Decidable (_ ∧ _))

/-- The job in the storage waits for a worker that waits, or for a job that does so. -/
inductive State.Stuck (s : State) (await : Nat → Option Addr) : Addr → Prop
  | queued {a : Addr} {q : QueueId} :
      s.Closed await q → s.store.Linked q a → Stuck s await a
  | behind {a b : Addr} :
      Stuck s await b → (s.jobs b).continuation = some a → Stuck s await a

/-- The workers that wait are in a work, and wait for stuck jobs. -/
structure State.Deadlocked (s : State) (await : Nat → Option Addr) : Prop where
  running : ∀ i, (await i).isSome = true → ∃ job, (s.worker i).pc = .running job
  stuck : ∀ i c, await i = some c → s.Stuck await c

/-- A work that waits does not return before a poll reads zero. -/
def State.Polls (s : State) (await : Nat → Option Addr) : Action → Prop
  | .finish i => ∀ c ∈ await i, (s.jobs c).unfinished = false
  | _ => True

instance (s : State) (await : Nat → Option Addr) : DecidablePred (s.Polls await)
  | .finish i => inferInstanceAs (Decidable (∀ c ∈ await i, (s.jobs c).unfinished = false))
  | .schedule _ _ _ _ | .jobThen _ _ _ _ _ | .call _ | .shutdown _ | .work _ => .isTrue trivial

/-! ## In the ledger -/

section Ledger

variable {n : Nat} {P : Policy} {L L' : Ledger} {B : QueueId → Prop}
variable {a b c x : Addr} {p : Place} {q : QueueId}

/-- The job in the storage is in one of the queues `B`, or behind such a job, or it was: then
another continuation was written in its place, and nothing leads to it any more. -/
inductive Ledger.Stuck (L : Ledger) (B : QueueId → Prop) : Addr → Prop
  | queued {a : Addr} {q : QueueId} : B q → L.place a = some (.queue q) → Stuck L B a
  | behind {a b : Addr} : Stuck L B b → L.place a = some (.cont b) → Stuck L B a
  | lost {a : Addr} : a ∈ L.live → L.place a = none → .started ∉ trail L.log (L.jobs a).work →
      Stuck L B a

/-- The places of stuck jobs. -/
theorem Ledger.Stuck.place (h : L.Stuck B a) :
    (∃ q, B q ∧ L.place a = some (.queue q)) ∨ (∃ b, L.Stuck B b ∧ L.place a = some (.cont b)) ∨
      L.place a = none := by
  cases h with
  | queued hq ha => exact Or.inl ⟨_, hq, ha⟩
  | behind hb ha => exact Or.inr (Or.inl ⟨_, hb, ha⟩)
  | lost _ ha _ => exact Or.inr (Or.inr ha)

/-- A job in another place is not stuck. -/
theorem Ledger.Stuck.ne (h : L.Stuck B a) (hx : L.place x = some p)
    (hq : ∀ q, p = .queue q → ¬ B q) (hc : ∀ b, p ≠ .cont b) : a ≠ x := by
  rintro rfl
  rcases h.place with ⟨q, hB, ha⟩ | ⟨b, -, ha⟩ | ha
  · exact hq q (Option.some.inj (hx.symm.trans ha)) hB
  · exact hc b (Option.some.inj (hx.symm.trans ha))
  · rw [hx] at ha
    cases ha

theorem Ledger.Stuck.live (h : L.Stuck B a) (ho : L.InOrder) : a ∈ L.live := by
  cases h with
  | queued _ ha => exact ho.valid.live ha
  | behind _ ha => exact ho.valid.live ha
  | lost hl _ _ => exact hl

theorem Ledger.Stuck.unstarted (h : L.Stuck B a) (ho : L.InOrder)
    (hB : ∀ q, B q → q.isBin = false) : .started ∉ trail L.log (L.jobs a).work := by
  cases h with
  | queued hq ha =>
      rw [ho.valid.mem_trail_iff ha]
      simp [Place.stage, hB _ hq]
  | behind _ ha =>
      rw [ho.valid.mem_trail_iff ha]
      simp
  | lost _ _ hbegan => exact hbegan

/-- Its counter says that it is not completed. -/
theorem Ledger.Stuck.counter (h : L.Stuck B a) (ho : L.InOrder)
    (hB : ∀ q, B q → q.isBin = false) : (L.jobs a).numChildren = 1 := by
  have hbegan := h.unstarted ho hB
  refine ho.valid.counter_one (h.live ho) fun hoff => hbegan ?_
  exact ho.valid.mem_trail_of_le hoff (Nat.zero_le _)

/-- What a move does to a stuck job: nothing, or it makes it lost, or a worker takes it out of its
queue. -/
theorem Move.stuck_place (hm : Move n P L L') (ho : L.InOrder) (hB : ∀ q, B q → q.isBin = false)
    (h : L.Stuck B a) : L'.place a = L.place a ∨ L'.place a = none ∨
      ∃ i q, L.place a = some (.queue q) ∧ q.TakenBy i ∧
        L'.place a = some (.run i .started none) := by
  have hput : ∀ {x d}, a ≠ x → (L.put x d).place a = L.place a :=
    fun hax => Ledger.put_place_of_ne hax
  have hcall : ∀ {x t e}, L.place x = some (.call t e) → a ≠ x :=
    fun hx => h.ne hx (by simp) (by simp)
  have hrun : ∀ {x i k v}, L.place x = some (.run i k v) → a ≠ x :=
    fun hx => h.ne hx (by simp) (by simp)
  cases hm with
  | @construct x t e o hx _ =>
      have hax : a ≠ x := h.ne hx (fun q hq hBq => by cases hq; cases hB _ hBq) (by simp)
      exact Or.inl (Function.update_of_ne hax ..)
  | @allocate x t e o hx _ =>
      have hax : a ≠ x := fun hax => hx (hax ▸ h.live ho)
      exact Or.inl (Function.update_of_ne hax ..)
  | route hx _ => exact Or.inl (hput (hcall hx))
  | balance hx => exact Or.inl (hput (hcall hx))
  | push hx _ => exact Or.inl (hput (hcall hx))
  | @attach x b t of hx _ =>
      have hplace : (L.attach b of x).place a = (L.place a).filter fun p => p ≠ .cont b :=
        if_neg (hcall hx)
      rw [hplace]
      cases hp : L.place a with
      | none => exact Or.inl rfl
      | some p =>
          by_cases hpb : p = .cont b
          · right; left
            simp [hpb]
          · left
            simp [Option.filter, hpb]
  | @pop x i q hx hq =>
      by_cases hax : a = x
      · subst hax
        refine Or.inr (Or.inr ⟨i, q, hx, ?_, Ledger.put_place_self⟩)
        rcases hq with rfl | ⟨j, rfl⟩
        · rfl
        · trivial
      · exact Or.inl (hput hax)
  | advance hx _ => exact Or.inl (hput (hrun hx))
  | @readContinuation x i via hx _ =>
      left
      cases hc : (L.jobs x).continuation with
      | none => exact hput (hrun hx)
      | some c =>
          -- the job behind `x` is not stuck, because `x` is at a worker
          have hac : a ≠ c := by
            rintro rfl
            have hax := ho.behind hx hc
            rcases h.place with ⟨q, -, ha⟩ | ⟨b, hb, ha⟩ | ha <;> rw [hax] at ha
            · cases ha
            · cases ha
              exact hb.ne hx (by simp) (by simp) rfl
            · cases ha
          exact (Ledger.put_place_of_ne hac).trans (hput (hrun hx))
  | fetchSub hx => exact Or.inl (hput (hrun hx))
  | @recycle x i via q c hx _ hc =>
      left
      cases c with
      | none => exact hput (hrun hx)
      | some c =>
          have hac : a ≠ c := h.ne ((hc c).mp rfl) (by simp) (by simp)
          exact (Ledger.put_place_of_ne hac).trans (hput (hrun hx))
  | @collect i =>
      cases hp : L.place a with
      | none =>
          left
          simp [Ledger.drop, hp]
      | some p =>
          have hpg : p ≠ .queue (.garbageBin (.worker i)) := by
            rintro rfl
            exact h.ne hp (fun q hq hBq => by cases hq; cases hB _ hBq) (by simp) rfl
          left
          exact Ledger.drop_place.mpr ⟨hp, hpg⟩
  | note => exact Or.inl rfl

/-- No new job is made in the storage of a stuck one, and it is not started. -/
theorem Move.stuck_keeps (hm : Move n P L L') (ho : L.InOrder) (hB : ∀ q, B q → q.isBin = false)
    (h : L.Stuck B a) : a ∈ L'.live ∧ (L'.jobs a).work = (L.jobs a).work ∧
      .started ∉ trail L'.log (L.jobs a).work := by
  have hl := h.live ho
  have hbegan : .started ∉ trail L'.log (L.jobs a).work := by
    intro hbegan
    obtain ⟨i, v, hst⟩ := started_iff.mp hbegan
    rcases hm.started hst with hold | ⟨x, hx, hw⟩
    · exact h.unstarted ho hB (started_iff.mpr ⟨i, v, hold⟩)
    · have hax : a = x := ho.valid.work_inj hl (ho.valid.live hx) hw.symm
      exact h.ne hx (by simp) (by simp) hax
  rcases hm.keeps with hk | ⟨x, t, e, o, L₁, hb, -, rfl⟩
  · exact ⟨hk.live ▸ hl, hk.work a, hbegan⟩
  · have hax : a ≠ x := by
      rcases hb with ⟨⟨t, hx⟩, -⟩ | ⟨hx, -⟩
      · exact h.ne hx (fun q hq hBq => by cases hq; cases hB _ hBq) (by simp)
      · exact fun hax => hx (hax ▸ hl)
    have hsame : L₁.jobs = L.jobs ∧ L₁.live = L.live := by
      rcases hb with ⟨-, rfl⟩ | ⟨-, rfl⟩ <;> exact ⟨rfl, rfl⟩
    refine ⟨?_, ?_, hbegan⟩
    · by_cases hx : x ∈ L.live
      · simpa [Ledger.construct, hsame.2, hx] using hl
      · simpa [Ledger.construct, hsame.2, hx] using Or.inr hl
    · simp [Ledger.construct, hsame.1, hax]

/-- **A stuck job stays stuck** as long as no worker gets a job out of the queues `B`. -/
theorem Move.stuck (hm : Move n P L L') (ho : L.InOrder) (hB : ∀ q, B q → q.isBin = false)
    (hfree : ∀ {a i q}, B q → q.TakenBy i → L'.place a ≠ some (.run i .started none))
    (h : L.Stuck B a) : L'.Stuck B a := by
  induction h with
  | @queued a q hq ha =>
      have hst : L.Stuck B a := .queued hq ha
      obtain ⟨hl, hw, hbegan⟩ := hm.stuck_keeps ho hB hst
      rcases hm.stuck_place ho hB hst with hsame | hnone | ⟨i, r, hr, ht, hrun⟩
      · exact .queued hq (hsame.trans ha)
      · exact .lost hl hnone (hw ▸ hbegan)
      · obtain rfl : r = q := by
          rw [ha] at hr
          cases hr
          rfl
        exact absurd hrun (hfree hq ht)
  | @behind a b hb ha ih =>
      have hst : L.Stuck B a := .behind hb ha
      obtain ⟨hl, hw, hbegan⟩ := hm.stuck_keeps ho hB hst
      rcases hm.stuck_place ho hB hst with hsame | hnone | ⟨i, r, hr, -, -⟩
      · exact .behind ih (hsame.trans ha)
      · exact .lost hl hnone (hw ▸ hbegan)
      · rw [ha] at hr
        cases hr
  | @lost a hl ha hbegan =>
      have hst : L.Stuck B a := .lost hl ha hbegan
      obtain ⟨hl', hw, hbegan'⟩ := hm.stuck_keeps ho hB hst
      rcases hm.stuck_place ho hB hst with hsame | hnone | ⟨i, r, hr, -, -⟩
      · exact .lost hl' (hsame.trans ha) (hw ▸ hbegan')
      · exact .lost hl' hnone (hw ▸ hbegan')
      · rw [ha] at hr
        cases hr

/-- The other workers may deallocate the jobs in their own queues and bins. -/
theorem Ledger.Stuck.free (h : L.Stuck B a) (ho : L.InOrder) (hx : L.place x = some (.queue q))
    (hq : ¬ B q) : (L.free x).Stuck B a := by
  have hne : ∀ {c}, L.Stuck B c → c ≠ x := fun hc =>
    hc.ne hx (fun r hr hBr => hq (by cases hr; exact hBr)) (by simp)
  induction h with
  | @queued a r hr ha =>
      exact .queued hr (Ledger.free_place.mpr ⟨hne (.queued hr ha), ha, by simp⟩)
  | @behind a b hb ha ih =>
      refine .behind ih (Ledger.free_place.mpr ⟨hne (.behind hb ha), ha, fun hbx => ?_⟩)
      cases hbx
      exact hne hb rfl
  | @lost a hl ha hbegan =>
      refine .lost ((ho.valid.nodup.mem_erase_iff).mpr ⟨hne (.lost hl ha hbegan), hl⟩) ?_ ?_
      · simp [Ledger.free, ha]
      · rwa [Ledger.free, trail_unmarked rfl]

theorem Ledger.Stuck.clear {e : Event} (h : L.Stuck B a) (he : e.Note L) (hq : ¬ B q) :
    ((L.drop fun p => p = .queue q).record e).Stuck B a := by
  induction h with
  | @queued a r hr ha =>
      refine .queued hr (Ledger.drop_place.mpr ⟨ha, fun hrq => hq ?_⟩)
      cases hrq
      exact hr
  | @behind a b _ ha ih => exact .behind ih (Ledger.drop_place.mpr ⟨ha, by simp⟩)
  | @lost a hl ha hbegan =>
      have hmark : e.mark = none := by
        cases e with
        | returned | drained | saved | shutdownCompleted => rfl
        | _ => exact he.elim
      refine .lost hl (by simp [Ledger.drop, ha]) ?_
      rwa [Ledger.record_log, trail_unmarked hmark]

end Ledger

/-! ## Deadlocks -/

section Deadlock

variable {n : Nat} {s s' s₀ : State} {x : Action} {i : Nat} {c : Addr} {await : Nat → Option Addr}

theorem State.Closed.not_bin (q : QueueId) (h : s.Closed await q) : q.isBin = false := h.1

/-- The jobs that are stuck in a state are so in its ledger. -/
theorem State.Stuck.ledger {place : Addr → Option Place} (h : s.Stuck await c)
    (hv : Views s place) (ho : (s.ledger place).InOrder) :
    (s.ledger place).Stuck (s.Closed await) c := by
  induction h with
  | queued hq ha => exact .queued hq ((hv.queue _ _).mp ha)
  | @behind a b _ hab ih =>
      -- no worker has read the continuation yet, since the job in `b` was not started
      have hopen : (s.ledger place).Open b := by
        refine ⟨ih.live ho, fun hread => ih.unstarted ho State.Closed.not_bin ?_⟩
        exact ho.valid.mem_trail_of_le (continuationRead_iff.mpr hread) (Nat.zero_le _)
      exact .behind ih ((ho.chained a b).mpr ⟨hopen, hab⟩)

/-- What holds of the states after a deadlock. -/
structure Jammed (n : Nat) (await : Nat → Option Addr) (s₀ s : State) : Prop where
  rootless : s.Rootless
  reached : ∃ tr, Transition.Run step (init n) tr s
  worker : ∀ i, (await i).isSome = true → s.worker i = s₀.worker i
  ledger : ∃ place, Views s place ∧ (s.ledger place).InOrder ∧ ∀ c, s₀.Stuck await c →
    (s.ledger place).Stuck (s₀.Closed await) c ∧ (s.jobs c).work = (s₀.jobs c).work

/-- A worker stays inside the work that it runs, until this returns. -/
theorem step_running {job : Addr} (hpc : (s.worker i).pc = .running job) (hx : x ≠ .finish i)
    (hs : step s x = some s') : s'.worker i = s.worker i := by
  rcases step_cases hs with ⟨-, hf⟩ | ⟨j, a, rfl, -, -, -, rfl⟩ | ⟨j, -, -, hw⟩
  · rw [hf.worker]
  · have hji : i ≠ j := fun hij => hx (hij ▸ rfl)
    exact Function.update_of_ne hji ..
  · have hji : i ≠ j := by
      rintro rfl
      simp [workerStep, hpc] at hw
    exact (workerStep_frame hw).worker i hji

theorem Jammed.unfinished (h : Jammed n await s₀ s) (hc : s₀.Stuck await c) :
    (s.jobs c).unfinished = true := by
  obtain ⟨place, -, ho, hstuck⟩ := h.ledger
  have hone : (s.jobs c).numChildren = 1 := (hstuck c hc).1.counter ho State.Closed.not_bin
  simp [Job.unfinished, hone]

/-- A worker that takes jobs out of a queue is not one that waits. -/
theorem Jammed.not_closed {q : QueueId} (h : Jammed n await s₀ s) (hdead : s₀.Deadlocked await)
    (hsize : s₀.size = n) (hi : i < n) (hno : ∀ job, (s.worker i).pc ≠ .running job)
    (ht : q.isBin = false → q.TakenBy i) : ¬ s₀.Closed await q := by
  intro hq
  have hwait := hq.2 i (hsize ▸ hi) (ht hq.1)
  obtain ⟨job, hjob⟩ := hdead.running i hwait
  rw [← h.worker i hwait] at hjob
  exact hno job hjob

theorem Resource.queue_takenBy (i : Nat) (r : Resource) (h : (r.queue i).isBin = false) :
    (r.queue i).TakenBy i := by
  cases r with
  | globalQueue => trivial
  | localQueue => rfl
  | recyclingBin | garbageBin => cases h

theorem Jammed.step (h : Jammed n await s₀ s) (hdead : s₀.Deadlocked await)
    (hsize : s₀.size = n) (hx : x.Parentless) (hwait : s.Polls await x)
    (hs : JobSystem.step s x = some s') : Jammed n await s₀ s' := by
  obtain ⟨place, hv, ho, hstuck⟩ := h.ledger
  obtain ⟨tr, hrun⟩ := h.reached
  have hroot : s'.Rootless := Accounted.step_rootless ⟨place, hv, ho⟩ h.rootless hx hs
  have hrun' := hrun.snoc hs
  have hworker : ∀ i, (await i).isSome = true → s'.worker i = s₀.worker i := by
    intro i hi
    obtain ⟨c, hc⟩ := Option.isSome_iff_exists.mp hi
    obtain ⟨job, hjob⟩ := hdead.running i hi
    rw [← h.worker i hi] at hjob ⊢
    refine step_running hjob ?_ hs
    -- its poll does not read zero
    rintro rfl
    have hzero : (s.jobs c).unfinished = false := hwait c hc
    rw [h.unfinished (hdead.stuck i c hc)] at hzero
    cases hzero
  refine ⟨hroot, ⟨_, hrun'⟩, hworker, ?_⟩
  cases step_simulated hv ho (h.rootless.noneToTell x) (Policy.any_admits s x) hs with
  | stutter hv' hl =>
      refine ⟨place, hv', hl ▸ ho, fun c hc => ?_⟩
      obtain ⟨hst, hw⟩ := hstuck c hc
      exact ⟨hl ▸ hst, (congrArg (fun L => (Ledger.jobs L c).work) hl).trans hw⟩
  | @move place' hv' hm =>
      refine ⟨place', hv', hm.inOrder ho, fun c hc => ?_⟩
      obtain ⟨hst, hw⟩ := hstuck c hc
      refine ⟨hm.stuck ho State.Closed.not_bin (fun {a i q} hq ht hrun => ?_) hst,
        (hm.stuck_keeps ho State.Closed.not_bin hst).2.1.trans hw⟩
      -- no worker that takes jobs out of the queue has just got one
      obtain ⟨hcur, -⟩ := (hv'.run i a .started none).mpr hrun
      by_cases hi : i < n
      · have hwaits := hq.2 i (hsize ▸ hi) ht
        obtain ⟨job, hjob⟩ := hdead.running i hwaits
        rw [hworker i hwaits, hjob] at hcur
        cases hcur
      · rw [(worker_outside hrun').2 i (Nat.not_lt.mp hi)] at hcur
        cases hcur
  | @free place' i r a hv' hxi hpc ha hl =>
      subst hxi
      have hi : i < n := (worker_outside hrun).1 ▸ (step_work hs).1
      have hq : ¬ s₀.Closed await (r.queue i) :=
        h.not_closed hdead hsize hi (by simp [hpc]) (r.queue_takenBy i)
      refine ⟨place', hv', hl ▸ ho.free ha, fun c hc => ?_⟩
      obtain ⟨hst, hw⟩ := hstuck c hc
      exact ⟨hl ▸ hst.free ho ha hq, (congrArg (fun L => (Ledger.jobs L c).work) hl).trans hw⟩
  | @clear place' i r e hv' hxi hpc he hl =>
      subst hxi
      have hi : i < n := (worker_outside hrun).1 ▸ (step_work hs).1
      have hq : ¬ s₀.Closed await (r.queue i) :=
        h.not_closed hdead hsize hi (by simp [hpc]) (r.queue_takenBy i)
      refine ⟨place', hv', hl ▸ ho.clear he, fun c hc => ?_⟩
      obtain ⟨hst, hw⟩ := hstuck c hc
      exact ⟨hl ▸ hst.clear he hq, (congrArg (fun L => (Ledger.jobs L c).work) hl).trans hw⟩

/-- **Careless use results in infinite waiting.** Take a run without parents to a state in which
some works, each at a worker of its own, wait for stuck jobs. Whatever the threads do from there,
none of these works goes on: as long as a work returns from `wait` after a poll that reads zero
only, no poll of a stuck job reads zero, and no stuck job is started. -/
theorem wait_deadlock {tr₀ tr : List (State × Action)}
    (h₀ : Transition.Run step (init n) tr₀ s₀) (hx₀ : ∀ p ∈ tr₀, p.2.Parentless)
    (hdead : s₀.Deadlocked await) (h : Transition.Run step s₀ tr s)
    (hx : ∀ p ∈ tr, p.2.Parentless ∧ p.1.Polls await p.2) :
    (∀ i, (await i).isSome = true → s.worker i = s₀.worker i) ∧
      ∀ c, s₀.Stuck await c → (s.jobs c).unfinished = true ∧
        (s.jobs c).work = (s₀.jobs c).work ∧ ∀ i v, .started (s₀.jobs c).work i v ∉ s.log := by
  obtain ⟨hacc, hroot⟩ := run_rootless h₀ hx₀ s₀ (Transition.mem_visited_self tr₀ s₀)
  obtain ⟨place, hv, ho⟩ := hacc
  have hsize : s₀.size = n := (worker_outside h₀).1
  have hstart : Jammed n await s₀ s₀ :=
    ⟨hroot, ⟨tr₀, h₀⟩, fun _ _ => rfl, place, hv, ho, fun c hc => ⟨hc.ledger hv ho, rfl⟩⟩
  have hjam : Jammed n await s₀ s := h.invariant (I := Jammed n await s₀)
    (C := fun s x => x.Parentless ∧ s.Polls await x) hstart
    (fun hI hC hs => hI.step hdead hsize hC.1 hC.2 hs) hx
  refine ⟨hjam.worker, fun c hc => ⟨hjam.unfinished hc, ?_⟩⟩
  obtain ⟨place', -, ho', hstuck⟩ := hjam.ledger
  obtain ⟨hst, hw⟩ := hstuck c hc
  refine ⟨hw, fun i v hstarted => hst.unstarted ho' State.Closed.not_bin ?_⟩
  rw [show ((s.ledger place').jobs c).work = (s₀.jobs c).work from hw]
  exact started_iff.mpr ⟨i, v, hstarted⟩

/-- The only worker is in a work, which waits for the job in `8`. -/
def awaitOne (i : Nat) : Option Addr := if i = 0 then some 8 else none

/-- One worker: a work schedules a job and waits for it. Then a client schedules another one and
calls `shutdown`. -/
theorem wait_deadlock_one : ∃ tr₀ s₀ tr s, Transition.Run step (init 1) tr₀ s₀ ∧
    s₀.Deadlocked awaitOne ∧ Transition.Run step s₀ tr s ∧ s.shutdown = true ∧
    (s.worker 0).pc = .running 7 ∧ (s.jobs 8).unfinished = true := by
  have hexec : ((Transition.exec step (fun _ x => x.Parentless) (init 1)
      ([Action.schedule (.client 0) none none 7, .call (.client 0), .call (.client 0),
        .call (.client 0)] ++ List.replicate 10 (.work 0) ++
        [Action.schedule (.worker 0) none none 8, .call (.worker 0), .call (.worker 0),
        .call (.worker 0)])).any fun s =>
      decide (s.Closed awaitOne (.globalQueue 0) ∧ (s.worker 0).pc = .running 7 ∧
        (s.store.queue (.globalQueue 0)).head = some 8) &&
      (Transition.exec step (fun s x => x.Parentless ∧ s.Polls awaitOne x) s
        [.schedule (.client 0) none none 9, .call (.client 0), .call (.client 0),
          .call (.client 0), .shutdown (.client 0)]).any fun s => s.shutdown) = true := by decide
  obtain ⟨tr₀, s₀, h₀, -, hx₀, hs₀⟩ := Transition.exists_run_of_exec hexec
  obtain ⟨hs₀, hexec'⟩ := Bool.and_eq_true_iff.mp hs₀
  obtain ⟨hclosed, hpc, hhead⟩ := of_decide_eq_true hs₀
  obtain ⟨tr, s, h, -, hx, hs⟩ := Transition.exists_run_of_exec hexec'
  have hlinked : s₀.store.Linked (.globalQueue 0) 8 := by
    rw [Store.Linked, hhead]
    exact .here 8
  have hzero : ∀ {i}, (awaitOne i).isSome = true → i = 0 := by
    intro i hi
    by_contra hne
    simp [awaitOne, hne] at hi
  have hstuck : s₀.Stuck awaitOne 8 := .queued hclosed hlinked
  have hdead : s₀.Deadlocked awaitOne := by
    refine ⟨fun i hi => ⟨7, hzero hi ▸ hpc⟩, fun i c hc => ?_⟩
    obtain rfl := hzero (Option.isSome_of_eq_some hc)
    obtain rfl : 8 = c := Option.some.inj hc
    exact hstuck
  obtain ⟨hworker, hall⟩ := wait_deadlock h₀ hx₀ hdead h hx
  exact ⟨tr₀, s₀, tr, s, h₀, hdead, h, hs, by rw [hworker 0 rfl, hpc], (hall 8 hstuck).1⟩

end Deadlock

end Bop.JobSystem
