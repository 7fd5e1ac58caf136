import Bop.JobSystem.Ownership

set_option autoImplicit false

/-! # References to completed jobs

`Job::wait` polls `m_NumChildren` through the reference that `schedule` returned, "until the
job was executed". But the storage of a completed job goes into a bin at once, where
`create_job` takes it for the next job and the cleanup of a worker returns it to the memory
resource.

`handles_stable_iff` says that these are the only two ways in which a reference goes bad.
-/

namespace Bop.JobSystem

/-- The `fetch_sub` of `job_completed` found nothing else to wait for. -/
def Event.zeroes (w : Work) : Event → Bool
  | .fetchSub v r _ => v = w ∧ r ≤ 1
  | _ => false

/-- **References are stable**: every poll through the reference to a completed job reads zero,
from storage that still holds that job. -/
def State.HandlesStable (s : State) : Prop :=
  ∀ w a, .scheduled w a ∈ s.log → s.log.any (Event.zeroes w) = true →
    a ∈ s.live ∧ (s.jobs a).work = w ∧ (s.jobs a).unfinished = false

/-- The storage that the action takes out of a bin: `create_job` out of the recycling bin of its
thread, the cleanup of a worker out of its two bins. -/
def State.takesBack (s : State) : Action → Option Addr
  | .schedule t _ _ _ | .jobThen t _ _ _ _ =>
      (JobQueueNonThreadsafe.pop s.store (.recyclingBin t)).1
  | .work i =>
      match (s.worker i).pc with
      | .drain .recyclingBin => (JobQueueNonThreadsafe.pop s.store (.recyclingBin (.worker i))).1
      | .drain .garbageBin => (JobQueueNonThreadsafe.pop s.store (.garbageBin (.worker i))).1
      | _ => none
  | .call _ | .shutdown _ | .finish _ => none

/-! ## Published jobs -/

section Announced

variable {n : Nat} {P : Policy}
variable {L L' : Ledger} {a : Addr} {p d : Place} {e : Event} {w : Work}

/-- A job that is not in the hands of a call any more was returned by `schedule`. -/
def Ledger.Announced (L : Ledger) : Prop :=
  ∀ a p, L.place a = some p → (∀ t c, p ≠ .call t c) → .scheduled (L.jobs a).work a ∈ L.log

theorem Ledger.Announced.of_places (h : L.Announced) (hlog : ∀ e ∈ L.log, e ∈ L'.log)
    (hplace : ∀ x p, L'.place x = some p → (∀ t c, p ≠ .call t c) →
      (L'.jobs x).work = (L.jobs x).work ∧ ∃ r, L.place x = some r ∧ ∀ t c, r ≠ .call t c) :
    L'.Announced := by
  intro x p hx hp
  obtain ⟨hw, r, hr, hrc⟩ := hplace x p hx hp
  rw [hw]
  exact hlog _ (h x r hr hrc)

/-- A job goes from a place outside of a call to any place. -/
theorem Ledger.Announced.put (h : L.Announced) (ha : L.place a = some p)
    (hp : ∀ t c, p ≠ .call t c) : (L.put a d).Announced := by
  refine h.of_places (fun e he => he) (fun x r hx hr => ⟨rfl, ?_⟩)
  by_cases hxa : x = a
  · subst hxa
    exact ⟨p, ha, hp⟩
  · rw [put_place_of_ne hxa] at hx
    exact ⟨r, hx, hr⟩

theorem Ledger.Announced.record (h : L.Announced) : (L.record e).Announced :=
  h.of_places (fun _ he => List.mem_cons_of_mem _ he) (fun _ r hx hr => ⟨rfl, r, hx, hr⟩)

/-- A job stays in the hands of a call. -/
theorem Ledger.Announced.putCall {t : Tid} {c : Call} (h : L.Announced) :
    (L.put a (.call t c)).Announced := by
  refine h.of_places (fun e he => he) (fun x r hx hr => ⟨rfl, ?_⟩)
  by_cases hxa : x = a
  · subst hxa
    rw [put_place_self] at hx
    exact absurd (Option.some.inj hx).symm (hr t c)
  · rw [put_place_of_ne hxa] at hx
    exact ⟨r, hx, hr⟩

theorem Ledger.Announced.construct {t : Tid} {c : Call} {o : Origin} (h : L.Announced) :
    (L.construct a (.call t c) o).Announced := by
  refine h.of_places (fun e he => List.mem_cons_of_mem _ he) (fun x r hx hr => ?_)
  by_cases hxa : x = a
  · subst hxa
    have hx' : Place.call t c = r := by simpa [Ledger.construct] using hx
    exact absurd hx'.symm (hr t c)
  · have hx' : L.place x = some r := by simpa [Ledger.construct, hxa] using hx
    exact ⟨by simp [Ledger.construct, hxa], r, hx', hr⟩

theorem Move.announced (hm : Move n P L L') (ho : L.InOrder) (h : L.Announced)
    (hatt : ∀ {b of a}, ¬ P.attaches b of a) : L'.Announced := by
  cases hm with
  | construct ha hc => exact h.construct
  | allocate ha hc => exact h.record.construct
  | route ha hc => exact h.putCall
  | balance ha => exact h.putCall
  | @push a t c q ha hq =>
      intro x r hx hr
      by_cases hxa : x = a
      · subst hxa
        exact List.mem_cons_self
      · have hx' : L.place x = some r := by rw [← hx]; exact (Ledger.put_place_of_ne hxa).symm
        exact List.mem_cons_of_mem _ (h x r hx' hr)
  | attach ha hab => exact absurd hab hatt
  | pop ha hq => exact h.put ha (by simp)
  | advance ha he => exact (h.put ha (by simp)).record
  | @readContinuation a i via ha _ =>
      have hput := (h.put (d := .run i .countedOff (some (L.jobs a).work)) ha (by simp)).record
        (e := .continuationRead (L.jobs a).work)
      cases hc : (L.jobs a).continuation with
      | none => exact hput
      | some c =>
          have hca : L.place c = some (.cont a) := ho.behind ha hc
          exact hput.put (Ledger.put_place_keep ha hca (by simp)) (by simp)
  | @fetchSub a i via ha =>
      have hput := h.put (d := .run i .completed via) ha (by simp)
      have hwork : ∀ x, (Function.update L.jobs a { L.jobs a with numChildren := 0 } x).work =
          (L.jobs x).work := Ledger.update_field Job.work rfl
      exact hput.of_places (fun _ he => List.mem_cons_of_mem _ he)
        (fun x r hx hr => ⟨hwork x, r, hx, hr⟩)
  | @recycle a i via q c ha hq hc =>
      have hput := (h.put (d := .queue q) ha (by simp)).record (e := .recycled (L.jobs a).work)
      cases c with
      | none => exact hput
      | some c =>
          have hcn : L.place c = some (.next i via) := (hc c).mp rfl
          exact hput.put (Ledger.put_place_keep ha hcn (by simp)) (by simp)
  | collect =>
      exact h.of_places (fun _ he => he)
        (fun x r hx hr => ⟨rfl, r, (Ledger.drop_place.mp hx).1, hr⟩)
  | note he => exact h.record

theorem Ledger.Announced.free (h : L.Announced) : (L.free a).Announced :=
  h.of_places (fun _ he => List.mem_cons_of_mem _ he)
    (fun _ r hx hr => ⟨rfl, r, (free_place.mp hx).2.1, hr⟩)

theorem Ledger.Announced.clear {q : QueueId} (h : L.Announced) :
    ((L.drop fun p => p = .queue q).record e).Announced :=
  h.of_places (fun _ he => List.mem_cons_of_mem _ he)
    (fun _ r hx hr => ⟨rfl, r, (drop_place.mp hx).1, hr⟩)

end Announced

/-! ## Counted jobs -/

section Firm

variable {n : Nat} {P : Policy}
variable {L L' : Ledger} {a : Addr} {p d : Place} {e : Event} {w : Work} {k m : Stage}

/-- The stage that an event records belongs to a live job. -/
theorem Ledger.mem_trail_record (ha : a ∈ L.live)
    (he : e.mark = some ((L.jobs a).work, m)) (hk : k ∈ trail (e :: L.log) w) :
    k ∈ trail L.log w ∨ ∃ a ∈ L.live, (L.jobs a).work = w := by
  rw [trail_marked he] at hk
  by_cases hw : (L.jobs a).work = w
  · exact Or.inr ⟨a, ha, hw⟩
  · rw [if_neg hw] at hk
    exact Or.inl hk

/-- **Only the jobs in live storages pass stages.** -/
theorem Move.mem_trail (hm : Move n P L L') (ho : L.InOrder)
    (hk : k ∈ trail L'.log w) : k ∈ trail L.log w ∨ ∃ a ∈ L.live, (L.jobs a).work = w := by
  have hsame : ∀ es : List Event, (∀ e ∈ es, e.mark = none) →
      k ∈ trail (es ++ L.log) w → k ∈ trail L.log w := by
    intro es hes hk'
    obtain ⟨e, he, hmark⟩ := JobSystem.mem_trail.mp hk'
    rcases List.mem_append.mp he with he | he
    · rw [hes e he] at hmark
      cases hmark
    · exact JobSystem.mem_trail.mpr ⟨e, he, hmark⟩
  have hlive : ∀ {x p}, L.place x = some p → x ∈ L.live := fun hx => ho.valid.live hx
  cases hm with
  | construct ha hc => exact Or.inl (hsame [_] (by simp [Event.mark]) hk)
  | allocate ha hc => exact Or.inl (hsame [_, _] (by simp [Event.mark]) hk)
  | route | balance | pop | collect => exact Or.inl hk
  | push ha hq => exact Or.inl (hsame [_] (by simp [Event.mark]) hk)
  | attach ha hab => exact Or.inl (hsame [_] (by simp [Event.mark]) hk)
  | @advance a i m via e ha he =>
      have hmark : ∃ l, e.mark = some ((L.jobs a).work, l) := by
        rcases he with ⟨-, rfl⟩ | ⟨-, rfl⟩ | ⟨-, rfl⟩ <;> exact ⟨_, rfl⟩
      obtain ⟨l, hl⟩ := hmark
      exact Ledger.mem_trail_record (hlive ha) hl hk
  | @readContinuation a i via ha _ =>
      have hk' : k ∈ trail (.continuationRead (L.jobs a).work :: L.log) w := by
        cases hc : (L.jobs a).continuation with
        | none => rwa [hc] at hk
        | some c => rwa [hc] at hk
      exact Ledger.mem_trail_record (hlive ha) rfl hk'
  | fetchSub ha =>
      exact Ledger.mem_trail_record (hlive ha) rfl hk
  | @recycle a i via q c ha hq hc =>
      have hk' : k ∈ trail (.recycled (L.jobs a).work :: L.log) w := by
        cases c with
        | none => exact hk
        | some c => exact hk
      exact Ledger.mem_trail_record (hlive ha) rfl hk'
  | @note e he =>
      have hmark : e.mark = none := by cases e <;> first | rfl | exact he.elim
      exact Or.inl (hsame [e] (by simpa using hmark) hk)

/-- A job whose counter is at zero is still in the storage it was made in. -/
def Ledger.Firm (L : Ledger) : Prop :=
  ∀ w a p ti, .constructed w a p ti ∈ L.log → .countedOff ∈ trail L.log w →
    a ∈ L.live ∧ (L.jobs a).work = w

/-- A move that makes no job. -/
theorem Move.firm (hm : Move n P L L') (ho : L.InOrder) (h : L.Firm)
    (hn : L'.nextWork = L.nextWork) : L'.Firm := by
  rcases hm.keeps with hk | ⟨a, t, c, ti, L₁, hb, -, rfl⟩
  case inr =>
    have hsucc : L₁.nextWork + 1 = L.nextWork := hn
    have hsame : L₁.nextWork = L.nextWork := by rcases hb with ⟨-, rfl⟩ | ⟨-, rfl⟩ <;> rfl
    exact (Nat.succ_ne_self _ (hsucc.trans hsame.symm)).elim
  case inl =>
    intro w a p ti hc hoff
    obtain ⟨es, hes, hno⟩ := hk.log
    rw [hes] at hc
    have hold : .constructed w a p ti ∈ L.log :=
      (List.mem_append.mp hc).resolve_left fun he => by cases hno _ he
    rw [hk.live, hk.work]
    rcases hm.mem_trail ho hoff with hoff | ⟨b, hb, hbw⟩
    · exact h w a p ti hold hoff
    · obtain ⟨rfl, -⟩ := (ho.valid.constructed hold).2 b hb hbw
      exact ⟨hb, hbw⟩

/-- The storage of a job that was not counted off is returned. -/
theorem Ledger.Firm.free (h : L.Firm) (hv : L.Valid)
    (ha : .countedOff ∉ trail L.log (L.jobs a).work) :
    (L.free a).Firm := by
  intro w b p ti hc hoff
  have hc' : .constructed w b p ti ∈ L.log := by simpa [Ledger.free] using hc
  have hoff' : .countedOff ∈ trail L.log w := by
    rwa [show trail (L.free a).log w = trail L.log w from trail_unmarked rfl] at hoff
  obtain ⟨hl, hw⟩ := h w b p ti hc' hoff'
  have hne : b ≠ a := fun hba => ha (by rwa [← hba, hw])
  exact ⟨hv.nodup.mem_erase_iff.mpr ⟨hne, hl⟩, hw⟩

theorem Ledger.Firm.clear {q : QueueId} (h : L.Firm) (he : e.Note L) :
    ((L.drop fun p => p = .queue q).record e).Firm := by
  have hmark : e.mark = none := by cases e <;> first | rfl | exact he.elim
  intro w b p ti hc hoff
  have hoff' : .countedOff ∈ trail L.log w := by
    rwa [show trail ((L.drop fun p => p = .queue q).record e).log w = trail L.log w from
      trail_unmarked hmark] at hoff
  rcases List.mem_cons.mp hc with rfl | hc
  · exact he.elim
  · exact h w b p ti hc hoff'

/-- A job is made in a new storage. -/
theorem Ledger.Firm.allocate {t : Tid} {c : Call} {o : Origin} (h : L.Firm) (hv : L.Valid)
    (ha : a ∉ L.live) : ((L.record (.allocated a)).construct a (.call t c) o).Firm := by
  intro w b p ti' hc hoff
  have hoff' : .countedOff ∈ trail L.log w := by
    rwa [show trail ((L.record (.allocated a)).construct a (.call t c) o).log w = trail L.log w
      from (trail_unmarked rfl).trans (trail_unmarked rfl)] at hoff
  have hold : .constructed w b p ti' ∈ L.log := by
    rcases List.mem_cons.mp hc with hc | hc
    · cases hc
      rw [show trail L.log (L.record (.allocated a)).nextWork = [] from hv.fresh le_rfl] at hoff'
      cases hoff'
    · simpa [Ledger.record] using hc
  obtain ⟨hl, hw⟩ := h w b p ti' hold hoff'
  have hne : b ≠ a := fun hba => ha (hba ▸ hl)
  exact ⟨by simp [Ledger.construct, ha, hl], by simp [Ledger.construct, hne, hw]⟩

end Firm

/-! ## The two ways in which a reference goes bad -/

section Claims

variable {s s' : State} {x : Action} {n : Nat} {tr : List (State × Action)} {w : Work}

theorem zeroes_iff {L : Ledger} (h : L.Valid) :
    L.log.any (Event.zeroes w) = true ↔ .countedOff ∈ trail L.log w := by
  rw [List.any_eq_true, countedOff_iff]
  constructor
  · rintro ⟨e, he, hz⟩
    cases e <;> simp [Event.zeroes] at hz
    obtain ⟨rfl, -⟩ := hz
    exact ⟨_, _, he⟩
  · rintro ⟨r, own, he⟩
    obtain ⟨rfl, -⟩ := h.remaining he
    exact ⟨_, he, by simp [Event.zeroes]⟩

/-- The invariant of the runs that leave the bins alone. -/
def Undisturbed (s : State) : Prop :=
  (∀ t b of a, s.call t ≠ .attach b of a) ∧
    ∃ place, Views s place ∧ (s.ledger place).InOrder ∧ (s.ledger place).Announced ∧
      (s.ledger place).Firm

theorem undisturbed_init (n : Nat) : Undisturbed (init n) :=
  ⟨fun t b of a => by simp [init], _, views_init n, inOrder_init n,
    fun a p hp => by simp [State.ledger] at hp, fun w a p ti hc => by simp [State.ledger, init] at hc⟩

/-- The storages that the clean-up takes out of the two queues hold jobs that never ran. -/
theorem takesBack_drain {place : Addr → Option Place} {i : Nat} {r : Resource} {a : Addr}
    (h : Views s place) (hv : (s.ledger place).Valid) (hpc : (s.worker i).pc = .drain r)
    (ha : place a = some (.queue (r.queue i))) (hx : s.takesBack (.work i) = none) :
    .countedOff ∉ trail s.log (s.jobs a).work := by
  have hbin : ∀ {q}, (s.store.pop q).1 = none → ¬ s.store.Linked q a := by
    intro q hq
    rcases hpop : s.store.pop q with ⟨_ | b, st⟩
    · exact (h.store.pop_none hpop).2 a
    · rw [hpop] at hq
      cases hq
  have hlink : s.store.Linked (r.queue i) a := (h.queue _ a).mpr ha
  have hoff : .countedOff ∈ trail s.log (s.jobs a).work ↔
      Stage.countedOff.rank < (Place.queue (r.queue i)).stage :=
    hv.mem_trail_iff ha
  rw [hoff]
  cases r with
  | globalQueue | localQueue => simp [Resource.queue]
  | recyclingBin | garbageBin =>
      simp only [State.takesBack, hpc] at hx
      exact absurd hlink (hbin hx)

/-- A job is scheduled by a thread whose recycling bin is empty. -/
theorem firm_schedule {place place' : Addr → Option Place} {t : Tid} {ti : Option Nat}
    {fresh : Addr} (hf : (s.ledger place).Firm) (hv : (s.ledger place).Valid)
    (hfresh : fresh ∉ s.live) (hno : (s.store.pop (.recyclingBin t)).1 = none) :
    ((schedule s t none ti fresh).ledger place').Firm := by
  rcases construct_cases s t none ti fresh with ⟨c, st, hpop, -⟩ | ⟨st, -, hcon⟩
  · rw [hpop] at hno
    cases hno
  · have hall : (((s.ledger place).record (.allocated fresh)).construct fresh
        (.call t (.route fresh)) (s.origin none ti)).Firm := hf.allocate hv hfresh
    have heq : (schedule s t none ti fresh).ledger place' =
        { ((s.ledger place).record (.allocated fresh)).construct fresh (.call t (.route fresh))
            (s.origin none ti) with place := place' } := by
      rw [schedule, hcon]
      simp [State.ledger, State.setCall, State.origin, Ledger.construct, Ledger.record, hfresh]
    rw [heq]
    exact hall

/-- The jobs stay where they are as long as nothing is taken out of a bin. -/
theorem Undisturbed.step (h : Undisturbed s) (hx : x.Parentless ∧ x.NoThen)
    (hnone : s.NoneToTell x) (hno : s.takesBack x = none) (hs : step s x = some s') : Undisturbed s' := by
  obtain ⟨hna, place, hv, ho, han, hf⟩ := h
  have hsim := step_simulated hv ho hnone (noAttaches_admits hna) hs
  refine ⟨noAttach_step hx.2 hna hs, ?_⟩
  cases hsim with
  | stutter hv' hl => exact ⟨_, hv', hl ▸ ho, hl ▸ han, hl ▸ hf⟩
  | free hv' hxi hpc ha hl =>
      subst hxi
      have hoff := takesBack_drain hv ho.valid hpc ha hno
      exact ⟨_, hv', hl ▸ ho.free ha, hl ▸ han.free, hl ▸ hf.free ho.valid hoff⟩
  | clear hv' _ _ he hl => exact ⟨_, hv', hl ▸ ho.clear he, hl ▸ han.clear, hl ▸ hf.clear he⟩
  | @move place' hv' hm =>
      refine ⟨place', hv', hm.inOrder ho, hm.announced ho han id, ?_⟩
      cases x with
      | schedule t parent ti fresh =>
          obtain rfl : parent = none := hx.1
          obtain ⟨-, hfresh, -, rfl⟩ := step_schedule hs
          exact firm_schedule hf ho.valid hfresh hno
      | jobThen t of job ti fresh => exact absurd hx.2 id
      | call | shutdown | finish | work =>
          exact hm.firm ho hf (step_nextWork (by simp) (by simp) hs)

/-- The references to completed jobs are stable then. -/
theorem Undisturbed.handlesStable (h : Undisturbed s) : s.HandlesStable := by
  obtain ⟨-, place, -, ho, -, hf⟩ := h
  intro w a hsch hz
  have hval := ho.valid
  have hoff : .countedOff ∈ trail s.log w := (zeroes_iff hval).mp hz
  obtain ⟨p, ti, hcon⟩ := hval.scheduled hsch
  obtain ⟨hl, hw⟩ := hf w a p ti hcon hoff
  have hzero : (s.jobs a).numChildren = 0 := hval.counter_zero hl (hw.symm ▸ hoff)
  exact ⟨hl, hw, by simp [Job.unfinished, hzero]⟩

/-- A job in a bin is one that a reference was returned for, and it is completed. -/
theorem Undisturbed.binned {q : QueueId} {a : Addr} {st : Store QueueId Addr}
    (h : Undisturbed s) (hpop : s.store.pop q = (some a, st)) (hq : q.isBin = true) :
    .scheduled (s.jobs a).work a ∈ s.log ∧
      s.log.any (Event.zeroes (s.jobs a).work) = true ∧
      (s.jobs a).work < s.nextWork ∧ s.live.Nodup := by
  obtain ⟨-, place, hv, ho, han, -⟩ := h
  have hval := ho.valid
  have ha : place a = some (.queue q) := hv.popped hpop
  have hoff : .countedOff ∈ trail s.log (s.jobs a).work :=
    (hval.mem_trail_iff ha).mpr (by simp [stage_bin hq])
  exact ⟨han a _ ha (by simp), (zeroes_iff hval).mpr hoff, hval.work_lt (hval.live ha), hval.nodup⟩

/-- A new job in the storage of a completed one takes it from under its reference, -/
theorem Undisturbed.reused {t : Tid} {ti : Option Nat} {a fresh : Addr}
    {st : Store QueueId Addr} (h : Undisturbed s)
    (hpop : s.store.pop (.recyclingBin t) = (some a, st)) :
    ¬ (schedule s t none ti fresh).HandlesStable := by
  intro hst
  obtain ⟨hsch, hz, hlt, -⟩ := h.binned hpop rfl
  rcases construct_cases s t none ti fresh with ⟨c, st', hpop', hcon⟩ | ⟨st', hpop', -⟩
  · obtain rfl : a = c := Option.some.inj (congrArg Prod.fst (hpop.symm.trans hpop'))
    have hold := hst (s.jobs a).work a
    simp only [schedule, Option.map_none, hcon, State.setCall] at hold
    obtain ⟨-, hw, -⟩ := hold (List.mem_cons_of_mem _ hsch) (by
      rw [List.any_cons, hz, Bool.or_true])
    -- the storage holds the new work now
    rw [Function.update_self] at hw
    exact absurd hw hlt.ne'
  · rw [hpop] at hpop'
    cases hpop'

/-- and so does a cleanup that returns the storage. -/
theorem Undisturbed.returned {q : QueueId} {a : Addr} {st st' : Store QueueId Addr}
    (h : Undisturbed s) (hpop : s.store.pop q = (some a, st)) (hq : q.isBin = true) :
    ¬ State.HandlesStable { deallocate s a with store := st' } := by
  intro hst
  obtain ⟨hsch, hz, -, hnd⟩ := h.binned hpop hq
  have hold := hst (s.jobs a).work a
  simp only [deallocate, State.record] at hold
  obtain ⟨hl, -⟩ := hold (List.mem_cons_of_mem _ hsch) (by
    rw [List.any_cons, hz, Bool.or_true])
  exact hnd.not_mem_erase hl

/-- **What is taken out of a bin is taken from under a reference.** -/
theorem not_handlesStable_takesBack (h : Undisturbed s) (hx : x.Parentless ∧ x.NoThen)
    (hbad : ¬ s.takesBack x = none) (hs : step s x = some s') : ¬ s'.HandlesStable := by
  cases x with
  | schedule t parent ti fresh =>
      obtain rfl : parent = none := hx.1
      obtain ⟨-, -, -, rfl⟩ := step_schedule hs
      rcases hpop : s.store.pop (.recyclingBin t) with ⟨_ | a, st⟩
      · exact absurd (congrArg Prod.fst hpop) hbad
      · exact h.reused hpop
  | jobThen t of job ti fresh => exact absurd hx.2 id
  | call | shutdown | finish => exact absurd rfl hbad
  | work i =>
      -- only the cleanup of a bin takes a job back
      have hdrain : ∃ r, (s.worker i).pc = .drain r ∧ (r.queue i).isBin = true ∧
          (s.store.pop (r.queue i)).1 ≠ none ∧ r.pop i s.store = s.store.pop (r.queue i) := by
        cases hpc : (s.worker i).pc with
        | drain r =>
            cases r with
            | globalQueue | localQueue => exact absurd (by simp [State.takesBack, hpc]) hbad
            | recyclingBin | garbageBin =>
                refine ⟨_, rfl, rfl, fun hn => hbad ?_, rfl⟩
                simp only [State.takesBack, hpc]
                exact hn
        | _ => exact absurd (by simp [State.takesBack, hpc]) hbad
      obtain ⟨r, hpc, hbin, hne, hpopr⟩ := hdrain
      rcases hpop : s.store.pop (r.queue i) with ⟨_ | a, st⟩
      · rw [hpop] at hne
        exact absurd rfl hne
      · have hw := (step_work hs).2
        simp only [workerStep, hpc, hpopr, hpop] at hw
        obtain rfl := Option.some.inj hw
        exact h.returned hpop hbin

/-- **When references stay good.** In a run without parents and `then`, the references to
completed jobs are stable in all the states iff no step takes a job out of a bin: neither a
`schedule` of a thread that recycled a job before, nor the cleanup of a worker with a job in
one of its bins. -/
theorem handles_stable_iff (h : Transition.Run step (init n) tr s)
    (hx : ∀ p ∈ tr, p.2.Parentless ∧ p.2.NoThen) :
    (∀ x ∈ Transition.visited tr s, x.HandlesStable) ↔ ∀ p ∈ tr, p.1.takesBack p.2 = none :=
  h.visited_iff (D := fun s x => (x.Parentless ∧ x.NoThen) ∧ s.NoneToTell x)
    (C := fun s x => s.takesBack x = none) (I := Undisturbed)
    (fun p hp => ⟨hx p hp, run_noneToTell h (fun q hq => (hx q hq).1) p hp⟩)
    (undisturbed_init n) (fun hI hD hC hs => hI.step hD.1 hD.2 hC hs)
    Undisturbed.handlesStable (fun hI hD hC hs => not_handlesStable_takesBack hI hD.1 hC hs)

/-- One worker completes a job, and no bin is touched. -/
theorem handles_stable_iff_polled : ∃ tr s, Transition.Run step (init 1) tr s ∧
    .scheduled 1 7 ∈ s.log ∧ (s.jobs 7).unfinished = false ∧
    ∀ x ∈ Transition.visited tr s, x.HandlesStable := by
  have hexec : ((Transition.exec step
      (fun s x => (x.Parentless ∧ x.NoThen) ∧ s.takesBack x = none) (init 1)
      ([Action.schedule (.client 0) none none 7, .call (.client 0), .call (.client 0),
        .call (.client 0)] ++ List.replicate 10 (.work 0) ++ [Action.finish 0] ++
        List.replicate 6 (.work 0))).any fun s =>
      decide (.scheduled 1 7 ∈ s.log ∧ (s.jobs 7).unfinished = false)) = true := by decide
  obtain ⟨tr, s, hrun, -, hx, hs⟩ := Transition.exists_run_of_exec hexec
  obtain ⟨hsch, hzero⟩ := of_decide_eq_true hs
  exact ⟨tr, s, hrun, hsch, hzero,
    (handles_stable_iff hrun (fun p hp => (hx p hp).1)).mpr (fun p hp => (hx p hp).2)⟩

/-- **Counterexample.** The only worker completes the job 1 in the storage 7, and then runs the
job 2, which schedules the job 3. That one is made in the storage 7, so who polls the reference
to the job 1 waits for the job 3 from then on. -/
theorem not_handles_stable : ∃ tr s, Transition.Run step (init 1) tr s ∧
    (∀ p ∈ tr, p.2.Parentless ∧ p.2.NoThen) ∧ .scheduled 1 7 ∈ s.log ∧ .completed 1 ∈ s.log ∧
    (s.jobs 7).work = 3 ∧ (s.jobs 7).unfinished = true ∧ ¬ s.HandlesStable := by
  have hexec : ((Transition.exec step (fun _ x => x.Parentless ∧ x.NoThen) (init 1)
      ([Action.schedule (.client 0) none none 7, .call (.client 0), .call (.client 0),
        .call (.client 0), .schedule (.client 0) none none 8, .call (.client 0),
        .call (.client 0), .call (.client 0)] ++ List.replicate 10 (.work 0) ++ [Action.finish 0] ++
        List.replicate 14 (.work 0) ++ [Action.schedule (.worker 0) none none 9])).any fun s =>
      decide (.scheduled 1 7 ∈ s.log ∧ .completed 1 ∈ s.log ∧
        s.log.any (Event.zeroes 1) = true ∧ (s.jobs 7).work = 3 ∧
        (s.jobs 7).unfinished = true)) = true := by decide
  obtain ⟨tr, s, hrun, -, hx, hs⟩ := Transition.exists_run_of_exec hexec
  obtain ⟨hsch, hcomp, hz, hw, hun⟩ := of_decide_eq_true hs
  refine ⟨tr, s, hrun, hx, hsch, hcomp, hw, hun, fun hst => ?_⟩
  have hone : (s.jobs 7).work = 1 := (hst 1 7 hsch hz).2.1
  rw [hw] at hone
  cases hone

end Claims

end Bop.JobSystem
