import Bop.JobSystem.Accounting
import Bop.JobSystem.Continuation
import Bop.JobSystem.Indices

set_option autoImplicit false

/-! # The jobs that wait

A job that `schedule` has pushed stays in its queue until a worker takes it, and a worker that
took a job starts it. Continuations have no part in this: one that is written too late is lost,
but not the job in whose place it is written.

* `Move.waits` says what a move does to a job that waits to be started.
* `Supplied` is the invariant as long as the shutdown is not requested: each job that was
  scheduled and not started waits in the queue of a worker, or at one.
-/

namespace Bop.JobSystem

section Waiting

variable {n : Nat} {P : Policy}
variable {L L' : Ledger} {a b : Addr} {p : Place} {e : Event} {w : Work}

/-- The job in this place waits to be started: it is in a queue, or a worker has just got it. -/
def Place.waits : Place → Bool
  | .queue q => !q.isBin
  | .run _ m _ => m == .started
  | .call _ _ | .next _ _ | .cont _ => false

/-- A job that was scheduled waits until it is started. -/
def Ledger.Queued (L : Ledger) : Prop :=
  ∀ w b, .scheduled w b ∈ L.log → .started ∉ trail L.log w →
    ∃ a p, (L.jobs a).work = w ∧ L.place a = some p ∧ p.waits = true

/-- The job in `a`, at `p` before, is started by its worker now, or it waits where it was or at a
worker. -/
def Ledger.Waits (L L' : Ledger) (a : Addr) (p : Place) : Prop :=
  ((∀ q, p ≠ .queue q) ∧ .started ∈ trail L'.log (L.jobs a).work) ∨ L'.place a = some p ∨
    ∃ i, L'.place a = some (.run i .started none)

/-- A job in another place than one that waits is another job. -/
theorem Ledger.ne_of_waits {d : Place} (ha : L.place a = some p) (hp : p.waits = true)
    (hb : L.place b = some d) (hd : d.waits = false) : a ≠ b := by
  intro hab
  rw [← hab, ha] at hb
  rw [Option.some.inj hb, hd] at hp
  cases hp

/-- The log only grows. -/
theorem Move.trail_mono {k : Stage} (hm : Move n P L L') (hk : k ∈ trail L.log w) :
    k ∈ trail L'.log w := by
  rcases hm.keeps with hkeep | ⟨b, t, c, o, L₁, hb, -, rfl⟩
  · exact hkeep.mem_trail hk
  · refine mem_trail_cons ?_
    rcases hb with ⟨-, rfl⟩ | ⟨-, rfl⟩
    · exact hk
    · exact mem_trail_cons hk

/-- A new job is not made in place of one that waits. -/
theorem Move.work_eq (hm : Move n P L L') (ho : L.InOrder) (ha : L.place a = some p)
    (hp : p.waits = true) : (L'.jobs a).work = (L.jobs a).work := by
  rcases hm.keeps with hkeep | ⟨b, t, c, o, L₁, hb, -, rfl⟩
  · exact hkeep.work a
  · have hab : a ≠ b := by
      rcases hb with ⟨⟨u, hu⟩, -⟩ | ⟨hu, -⟩
      · exact Ledger.ne_of_waits ha hp hu rfl
      · exact fun hab => hu (hab ▸ ho.valid.live ha)
    have hjobs : L₁.jobs = L.jobs := by rcases hb with ⟨-, rfl⟩ | ⟨-, rfl⟩ <;> rfl
    simp [Ledger.construct, hab, hjobs]

/-- **A job that waits** is left alone until a worker takes it, and then until it is started. -/
theorem Move.waits (hm : Move n P L L') (ho : L.InOrder) (ha : L.place a = some p)
    (hp : p.waits = true) : L.Waits L' a p := by
  have hne : ∀ {b d}, L.place b = some d → d.waits = false → a ≠ b := Ledger.ne_of_waits ha hp
  have hput : ∀ {b d}, a ≠ b → (L.put b d).place a = some p :=
    fun hab => (Ledger.put_place_of_ne hab).trans ha
  cases hm with
  | @construct b t c o hb hc =>
      right; left
      simp [Ledger.construct, hne hb rfl, ha]
  | @allocate b t c o hb hc =>
      have hab : a ≠ b := fun hab => hb (hab ▸ ho.valid.live ha)
      right; left
      simp [Ledger.construct, Ledger.record, hab, ha]
  | route hb _ => exact Or.inr (Or.inl (hput (hne hb rfl)))
  | balance hb => exact Or.inr (Or.inl (hput (hne hb rfl)))
  | push hb _ => exact Or.inr (Or.inl (hput (hne hb rfl)))
  | @attach b b' t of hb _ =>
      refine Or.inr (Or.inl (Ledger.attach_place.mpr (Or.inr ⟨hne hb rfl, ha, fun hpc => ?_⟩)))
      rw [hpc] at hp
      cases hp
  | @pop b i q hb _ =>
      by_cases hab : a = b
      · subst hab
        exact Or.inr (Or.inr ⟨i, Ledger.put_place_self⟩)
      · exact Or.inr (Or.inl (hput hab))
  | @advance b i k via e hb he =>
      by_cases hab : a = b
      · subst hab
        -- it is at a worker, and its next stage is the start
        obtain rfl : p = .run i k via := Option.some.inj (ha.symm.trans hb)
        obtain rfl : k = .started := by simpa [Place.waits] using hp
        rcases he with ⟨-, rfl⟩ | ⟨hended, -⟩ | ⟨hcompl, -⟩
        · exact Or.inl ⟨by simp, started_iff.mpr ⟨i, via, List.mem_cons_self⟩⟩
        · cases hended
        · cases hcompl
      · exact Or.inr (Or.inl (hput hab))
  | @readContinuation b i via hb _ =>
      have hab := hne hb rfl
      right; left
      cases hc : (L.jobs b).continuation with
      | none => exact hput hab
      | some c =>
          have hac := hne (ho.behind hb hc) rfl
          exact (Ledger.put_place_of_ne hac).trans (hput hab)
  | fetchSub hb => exact Or.inr (Or.inl (hput (hne hb rfl)))
  | @recycle b i via q c hb hq hc =>
      have hab := hne hb rfl
      right; left
      cases c with
      | none => exact hput hab
      | some c =>
          have hac := hne ((hc c).mp rfl) rfl
          exact (Ledger.put_place_of_ne hac).trans (hput hab)
  | collect =>
      refine Or.inr (Or.inl (Ledger.drop_place.mpr ⟨ha, fun hpq => ?_⟩))
      rw [hpq] at hp
      cases hp
  | note => exact Or.inr (Or.inl ha)

/-- Only a push makes a job scheduled, and then it is in the queue. -/
theorem Move.scheduled (hm : Move n P L L') (hw : .scheduled w b ∈ L'.log) :
    .scheduled w b ∈ L.log ∨
      ∃ p, (L'.jobs b).work = w ∧ L'.place b = some p ∧ p.waits = true := by
  cases hm with
  | @push a t c q ha hq =>
      rcases List.mem_cons.mp hw with hw | hw
      · cases hw
        refine Or.inr ⟨.queue q, rfl, Ledger.put_place_self, ?_⟩
        rcases hq with ⟨-, rfl⟩ | ⟨-, rfl⟩ <;> rfl
      · exact Or.inl hw
  | construct | allocate | attach | fetchSub =>
      left
      simpa [Ledger.construct, Ledger.record, Ledger.attach, Ledger.setJob, Ledger.put] using hw
  | route | balance | pop | collect => exact Or.inl hw
  | advance _ he =>
      refine Or.inl ((List.mem_cons.mp hw).resolve_left fun heq => ?_)
      rcases he with ⟨-, rfl⟩ | ⟨-, rfl⟩ | ⟨-, rfl⟩ <;> cases heq
  | @readContinuation a =>
      left
      cases hc : (L.jobs a).continuation <;> simpa [Ledger.putCont, hc, Ledger.record,
        Ledger.put] using hw
  | @recycle a i via q c =>
      left
      cases c <;> simpa [Ledger.putCont, Ledger.record, Ledger.put] using hw
  | note he =>
      refine Or.inl ((List.mem_cons.mp hw).resolve_left fun heq => ?_)
      rw [← heq] at he
      exact he

theorem Move.queued (hm : Move n P L L') (ho : L.InOrder) (h : L.Queued) : L'.Queued := by
  intro w b hw hbegan
  rcases hm.scheduled hw with hold | ⟨p, hp⟩
  · obtain ⟨a, p, rfl, ha, hp⟩ := h w b hold fun hbegan' => hbegan (hm.trail_mono hbegan')
    have hwork := hm.work_eq ho ha hp
    rcases hm.waits ho ha hp with ⟨-, hbegan'⟩ | ha' | ⟨i, ha'⟩
    · exact absurd hbegan' hbegan
    · exact ⟨a, p, hwork, ha', hp⟩
    · exact ⟨a, _, hwork, ha', rfl⟩
  · exact ⟨b, p, hp⟩

end Waiting

/-! ## Until the shutdown -/

section Served

variable {n : Nat} {s s' : State} {a : Addr} {i : Nat} {q : QueueId} {w : Work} {x : Action}

/-- The invariant of the runs in which no job has a parent. -/
structure Served (s : State) : Prop where
  rootless : s.Rootless
  inside : s.shutdown = false → ∀ i, (s.worker i).pc.left = false
  ledger : ∃ place, Views s place ∧ (s.ledger place).InOrder ∧ (s.ledger place).Running ∧
    (s.shutdown = false → (s.ledger place).Queued)

theorem served_init (n : Nat) : Served (init n) where
  rootless := rootless_init n
  inside _ _ := rfl
  ledger := ⟨_, views_init n, inOrder_init n,
    fun w hbegan => by simp [State.ledger, init, trail] at hbegan,
    fun _ w b hw => by simp [State.ledger, init] at hw⟩

theorem Served.accounted (h : Served s) : Accounted s := by
  obtain ⟨place, hv, ho, -⟩ := h.ledger
  exact ⟨place, hv, ho⟩

/-- A worker that cleans up was told to. -/
theorem Served.not_cleaning (h : Served s) (hrun : s.shutdown = false) {r : Resource} :
    ¬ ((s.worker i).pc = .drain r ∨ (s.worker i).pc = .drainClear r) := by
  have hi := h.inside hrun i
  rintro (hpc | hpc)
  · rw [hpc] at hi
    cases hi
  · rw [hpc] at hi
    cases hi

theorem Served.step (h : Served s) (hx : x.Parentless) (hs : step s x = some s') :
    Served s' := by
  obtain ⟨place, hv, ho, hr, hq⟩ := h.ledger
  have hback : s'.shutdown = false → s.shutdown = false ∧ ∀ i, (s'.worker i).pc.left = false :=
    fun hrun => not_left_step hs hrun h.inside
  refine ⟨h.accounted.step_rootless h.rootless hx hs, fun hrun => (hback hrun).2, ?_⟩
  cases step_simulated hv ho (h.rootless.noneToTell x) (Policy.any_admits s x) hs with
  | stutter hv' hl =>
      exact ⟨place, hv', hl ▸ ho, hl ▸ hr, fun hrun => hl ▸ hq (hback hrun).1⟩
  | move hv' hm =>
      exact ⟨_, hv', hm.inOrder ho, hm.running ho hr, fun hrun => hm.queued ho (hq (hback hrun).1)⟩
  | free hv' _ hpc ha hl =>
      exact ⟨_, hv', hl ▸ ho.free ha, hl ▸ hr.free ha, fun hrun => (h.not_cleaning (hback hrun).1 (Or.inl hpc)).elim⟩
  | clear hv' _ hpc he hl =>
      exact ⟨_, hv', hl ▸ ho.clear he, hl ▸ hr.clear he,
        fun hrun => (h.not_cleaning (hback hrun).1 (Or.inr hpc)).elim⟩

/-- **When nothing is left to do**, the jobs that were scheduled are recycled, whatever happened to
the continuations. -/
theorem Served.recycled (h : Served s) (hq : s.Quiescent) (hw : .scheduled w a ∈ s.log) :
    .recycled ∈ trail s.log w := by
  obtain ⟨place, hv, -, hr, hqueued⟩ := h.ledger
  have hworker : ∀ {b i k v}, place b ≠ some (.run i k v) := by
    intro b i k v hb
    obtain ⟨hcur, -⟩ := (hv.run i b k v).mpr hb
    rw [hq.workers i] at hcur
    cases hcur
  by_contra hrecycled
  by_cases hbegan : .started ∈ trail s.log w
  · obtain ⟨b, i, k, v, hb, -⟩ := hr w hbegan hrecycled
    exact hworker hb
  · obtain ⟨b, p, -, hb, hp⟩ := hqueued hq.shutdown w a hw hbegan
    cases p with
    | queue q =>
        exact hq.queues q (by simpa [Place.waits] using hp) b ((hv.queue q b).mpr hb)
    | run => exact hworker hb
    | call | next | cont => cases hp

/-- **A job in a queue** stays there until a worker gets it. -/
theorem Served.linked (h : Served s) (hrun : s'.shutdown = false)
    (hs : JobSystem.step s x = some s') (hq : q.isBin = false) (ha : s.store.Linked q a) :
    s'.store.Linked q a ∨ ∃ i, (s'.worker i).pc.current = some (a, .started) := by
  obtain ⟨place, hv, ho, -⟩ := h.ledger
  have hplace : place a = some (.queue q) := (hv.queue q a).mp ha
  have hrun₀ := (not_left_step hs hrun h.inside).1
  cases step_simulated hv ho (h.rootless.noneToTell x) (Policy.any_admits s x) hs with
  | stutter hv' hl => exact Or.inl ((hv'.queue q a).mpr hplace)
  | move hv' hm =>
      rcases hm.waits ho hplace (by simpa [Place.waits] using hq) with ⟨hne, -⟩ | ha' | ⟨i, ha'⟩
      · exact absurd rfl (hne q)
      · exact Or.inl ((hv'.queue q a).mpr ha')
      · exact Or.inr ⟨i, ((hv'.run i a .started none).mpr ha').1⟩
  | free _ _ hpc => exact (h.not_cleaning hrun₀ (Or.inl hpc)).elim
  | clear _ _ hpc => exact (h.not_cleaning hrun₀ (Or.inr hpc)).elim

/-! ## Whose queues are used -/

/-- Only the queues of the `n` workers have jobs in them. -/
def State.QueuesOwned (s : State) (n : Nat) : Prop :=
  ∀ q a, q.isBin = false → s.store.Linked q a →
    ∃ i < n, q = .localQueue i ∨ q = .globalQueue i

theorem run_queuesOwned {tr : List (State × Action)} (hn : 0 < n) (hlt : n < 2 ^ 32)
    (h : Transition.Run step (init n) tr s) : s.QueuesOwned n := by
  have hout : Bounded n s ∧ ∀ i ≥ n, s.store.queue (.globalQueue i) = {} ∧
      s.store.queue (.localQueue i) = {} := by
    refine h.invariant (I := fun s => Bounded n s ∧ ∀ i ≥ n,
      s.store.queue (.globalQueue i) = {} ∧ s.store.queue (.localQueue i) = {})
      (C := fun _ _ => True) ⟨bounded_init hn, fun _ _ => ⟨rfl, rfl⟩⟩ ?_ (fun _ _ => trivial)
    rintro s x s' ⟨hb, hout⟩ - hs
    refine ⟨hb.step hn hlt hs, fun i hi => ?_⟩
    have hleaves := step_indices hs
    have hrange := (hb.inRange hn hs).index
    obtain ⟨hglobal, hlocal⟩ := hout i hi
    refine ⟨?_, ?_⟩
    · rw [hleaves.globalQueues i fun hmem => absurd (hrange _ hmem) (Nat.not_lt.mpr hi), hglobal]
    · rw [hleaves.localQueues i fun hmem => absurd (hrange _ hmem) (Nat.not_lt.mpr hi), hlocal]
  have hempty : ∀ {q a}, s.store.queue q = {} → ¬ s.store.Linked q a := by
    intro q a hq hl
    rw [Store.Linked, hq] at hl
    cases hl
  intro q a hq hl
  cases q with
  | globalQueue i =>
      refine ⟨i, ?_, Or.inr rfl⟩
      by_contra hi
      exact hempty (hout.2 i (Nat.not_lt.mp hi)).1 hl
  | localQueue i =>
      refine ⟨i, ?_, Or.inl rfl⟩
      by_contra hi
      exact hempty (hout.2 i (Nat.not_lt.mp hi)).2 hl
  | recyclingBin | garbageBin => cases hq

end Served

end Bop.JobSystem
