import Bop.JobSystem.Refinement

set_option autoImplicit false

/-! # Where `m_Continuation` points

A storage is used for one job after the other, and the pointers to it stay what they are. Here is
what the `m_Continuation` of a job points to as long as that job is not recycled: a job that is
not recycled either (`Ledger.Tied`). It waits behind the first job, or a worker has read the pointer
and is going to run it next; or it is lost, because the pointer was written too late or over another
one, and then it is never run.
-/

namespace Bop.JobSystem

section Tied

open Ledger

variable {n : Nat} {P : Policy}
variable {L L' L₁ : Ledger} {a b c : Addr} {p d : Place} {e : Event}

/-- The storage holds a job that is not recycled. -/
def Ledger.Alive (L : Ledger) (a : Addr) : Prop :=
  a ∈ L.live ∧ .recycled (L.jobs a).work ∉ L.log

/-- **The continuation of a job is not recycled before the job.** -/
def Ledger.Tied (L : Ledger) : Prop :=
  ∀ a c, L.Alive a → (L.jobs a).continuation = some c →
    L.place c = some (.cont a) ∨ (L.place c = none ∧ L.Alive c) ∨
      ∃ i k v v', Stage.countedOff.rank ≤ k.rank ∧ L.place a = some (.run i k v) ∧
        L.place c = some (.next i v')

/-- A worker has one current job. -/
def Ledger.OneEach (L : Ledger) : Prop :=
  ∀ {a b i j k v u}, L.place a = some (.run i j v) → L.place b = some (.run i k u) → a = b

theorem Ledger.Valid.alive (h : L.Valid) (ha : L.place a = some p)
    (hp : p.stage ≤ Stage.recycled.rank) :
    L.Alive a := by
  refine ⟨h.live ha, fun hr => ?_⟩
  have hlt := (h.mem_trail_iff ha).mp (recycled_iff.mpr hr)
  omega

theorem Ledger.Tied.alive (h : L.Tied) (ho : L.InOrder) (ha : L.Alive a)
    (hc : (L.jobs a).continuation = some c) : L.Alive c := by
  rcases h a c ha hc with hp | ⟨-, halive⟩ | ⟨i, k, v, v', -, -, hp⟩
  · exact ho.valid.alive hp (Nat.zero_le _)
  · exact halive
  · exact ho.valid.alive hp (Nat.zero_le _)

/-- The jobs and the record stay as far as it matters here, and the job in `a` goes elsewhere. -/
theorem Ledger.Tied.put (h : L.Tied) (ha : L.place a = some p) (hcont : ∀ b, p ≠ .cont b)
    (hnext : ∀ i v, p ≠ .next i v)
    (hrun : ∀ i k v, p = .run i k v → Stage.countedOff.rank ≤ k.rank →
      ∃ m u, d = .run i m u ∧ Stage.countedOff.rank ≤ m.rank)
    (hplace : L'.place = Function.update L.place a (some d)) (hlive : L'.live = L.live)
    (hjobs : ∀ x, (L'.jobs x).work = (L.jobs x).work ∧
      (L'.jobs x).continuation = (L.jobs x).continuation)
    (hlog : ∀ w, .recycled w ∈ L'.log ↔ .recycled w ∈ L.log) : L'.Tied := by
  have halive : ∀ x, L'.Alive x ↔ L.Alive x := by
    intro x
    rw [Ledger.Alive, Ledger.Alive, hlive, hlog, (hjobs x).1]
  have hne : ∀ {x r}, L.place x = some r → r ≠ p → L'.place x = some r := by
    intro x r hx hr
    rw [hplace, Function.update_of_ne (fun hxa => hr ?_), hx]
    rw [hxa, ha] at hx
    exact (Option.some.inj hx).symm
  intro x c hx hc
  rw [(hjobs x).2] at hc
  rcases h x c ((halive x).mp hx) hc with hp | ⟨hp, hc'⟩ | ⟨i, k, v, v', hk, hpx, hp⟩
  · exact Or.inl (hne hp (Ne.symm (hcont x)))
  · refine Or.inr (Or.inl ⟨?_, (halive c).mpr hc'⟩)
    rw [hplace, Function.update_of_ne (fun hca => ?_), hp]
    rw [hca, ha] at hp
    cases hp
  · refine Or.inr (Or.inr ?_)
    have hpc := hne hp (Ne.symm (hnext i v'))
    by_cases hxa : x = a
    · subst hxa
      obtain ⟨m, u, rfl, hm⟩ := hrun i k v (Option.some.inj (ha.symm.trans hpx)) hk
      exact ⟨i, m, u, v', hm, by rw [hplace, Function.update_self], hpc⟩
    · exact ⟨i, k, v, v', hk, by rw [hplace, Function.update_of_ne hxa, hpx], hpc⟩

/-- A new job has no continuation, and its storage was no one's continuation. -/
theorem Ledger.Tied.construct {t : Tid} {e : Call} {o : Origin} (h : L.Tied) (ho : L.InOrder)
    (hb : L.Before a L₁) : (L₁.construct a (.call t e) o).Tied := by
  have hlog : ∀ w, .recycled w ∈ (L₁.construct a (.call t e) o).log ↔ .recycled w ∈ L.log := by
    rcases hb with ⟨-, rfl⟩ | ⟨-, rfl⟩ <;> simp [Ledger.construct]
  have hlive : ∀ x ≠ a, x ∈ (L₁.construct a (.call t e) o).live ↔ x ∈ L.live := by
    intro x hx
    rcases hb with ⟨-, hb⟩ | ⟨-, hb⟩ <;> by_cases hal : a ∈ L.live <;>
      simp [Ledger.construct, hb, hal, hx]
  have hjobs : ∀ x ≠ a, (L₁.construct a (.call t e) o).jobs x = L.jobs x ∧
      (L₁.construct a (.call t e) o).place x = L.place x := by
    intro x hx
    rcases hb with ⟨-, rfl⟩ | ⟨-, rfl⟩ <;> simp [Ledger.construct, hx]
  have halive : ∀ x ≠ a, (L₁.construct a (.call t e) o).Alive x ↔ L.Alive x := by
    intro x hx
    rw [Ledger.Alive, Ledger.Alive, hlive x hx, hlog, (hjobs x hx).1]
  -- the storage is in a bin, or it is not in use
  have hdead : ¬ L.Alive a ∧ ∀ r, L.place a = some r → ∃ u, r = .queue (.recyclingBin u) := by
    rcases hb with ⟨⟨u, hu⟩, -⟩ | ⟨hal, -⟩
    · refine ⟨fun hl => hl.2 (recycled_iff.mp ((ho.valid.mem_trail_iff hu).mpr (by simp))),
        fun r hr => ⟨u, Option.some.inj (hr.symm.trans hu)⟩⟩
    · exact ⟨fun hl => hal hl.1, fun r hr => absurd (ho.valid.live hr) hal⟩
  intro x c hx hc
  have hxa : x ≠ a := by
    rintro rfl
    simp [Ledger.construct] at hc
  rw [(hjobs x hxa).1] at hc
  have hxl := (halive x hxa).mp hx
  have hca : c ≠ a := fun hca => hdead.1 (hca ▸ h.alive ho hxl hc)
  rw [(hjobs c hca).2, (hjobs x hxa).2, halive c hca]
  exact h x c hxl hc

theorem Ledger.putCont_place_of_ne {o : Option Addr} (h : o ≠ some a) :
    (L.putCont o d).place a = L.place a := by
  cases o with
  | none => rfl
  | some b => exact put_place_of_ne fun hab => h (congrArg some hab.symm)

theorem Ledger.putCont_alive {o : Option Addr} : (L.putCont o d).Alive a ↔ L.Alive a := by
  cases o <;> rfl

theorem Ledger.putCont_jobs (L : Ledger) (o : Option Addr) (d : Place) :
    (L.putCont o d).jobs = L.jobs := by
  cases o <;> rfl

/-- The new continuation is behind its job, or it is lost. -/
theorem Ledger.Tied.attach {t : Tid} {of : Work} (h : L.Tied) (ho : L.InOrder)
    (ha : L.place a = some (.call t (.attach b of a))) : (L.attach b of a).Tied := by
  have halive : ∀ x, (L.attach b of a).Alive x ↔ L.Alive x := by
    intro x
    have hwork : ((L.attach b of a).jobs x).work = (L.jobs x).work := by
      by_cases hx : x = b <;> simp [Ledger.attach, hx]
    rw [Ledger.Alive, Ledger.Alive, hwork]
    simp [Ledger.attach]
  -- a job that is not the new one and not behind `b` stays where it is
  have hstay : ∀ {x p}, L.place x = some p → x ≠ a → p ≠ .cont b →
      (L.attach b of a).place x = some p :=
    fun hx hxa hp => attach_place.mpr (Or.inr ⟨hxa, hx, hp⟩)
  intro x c hx hc
  have hxl := (halive x).mp hx
  by_cases hxb : x = b
  · subst hxb
    obtain rfl : a = c := by simpa [Ledger.attach] using hc
    by_cases hopen : L.Open x
    · exact Or.inl (attach_place.mpr (Or.inl ⟨rfl, hopen, rfl⟩))
    · refine Or.inr (Or.inl ⟨?_, (halive a).mpr (ho.valid.alive ha (Nat.zero_le _))⟩)
      simp [Ledger.attach, hopen]
  · have hc' : (L.jobs x).continuation = some c := by simpa [Ledger.attach, hxb] using hc
    have hca : c ≠ a := by
      rintro rfl
      rcases h x c hxl hc' with hp | ⟨hp, -⟩ | ⟨i, k, v, v', -, -, hp⟩ <;>
        · rw [ha] at hp
          cases hp
    rcases h x c hxl hc' with hp | ⟨hp, hl⟩ | ⟨i, k, v, v', hk, hpx, hp⟩
    · exact Or.inl (hstay hp hca fun heq => hxb (Place.cont.inj heq))
    · refine Or.inr (Or.inl ⟨?_, (halive c).mpr hl⟩)
      simp [Ledger.attach, hca, hp]
    · refine Or.inr (Or.inr ⟨i, k, v, v', hk, hstay hpx ?_ (by simp), hstay hp hca (by simp)⟩)
      exact ne_of_place ha hpx (by simp)

/-- A worker gets hold of the continuation of its job. -/
theorem Ledger.Tied.readContinuation {i : Nat} {via : Option Work} (h : L.Tied) (ho : L.InOrder)
    (ha : L.place a = some (.run i .continuationRead via)) :
    (((L.put a (.run i .countedOff (some (L.jobs a).work))).record
      (.continuationRead (L.jobs a).work)).putCont (L.jobs a).continuation
        (.next i (some (L.jobs a).work))).Tied := by
  have halive : ∀ x, ((L.put a (.run i .countedOff (some (L.jobs a).work))).record
      (.continuationRead (L.jobs a).work)).Alive x ↔ L.Alive x := by
    intro x
    simp [Ledger.Alive]
  have hbehind : ∀ {y}, (L.jobs a).continuation = some y → L.place y = some (.cont a) :=
    fun hy => ho.behind ha hy
  -- a job that is neither of the two stays where it is
  have hstay : ∀ {y p}, L.place y = some p → p ≠ .run i .continuationRead via → p ≠ .cont a →
      (((L.put a (.run i .countedOff (some (L.jobs a).work))).record
        (.continuationRead (L.jobs a).work)).putCont (L.jobs a).continuation
          (.next i (some (L.jobs a).work))).place y = some p := by
    intro y p hy hrun hcont
    have hya : y ≠ a := ne_of_place ha hy (Ne.symm hrun)
    rw [putCont_place_of_ne fun hc => ?_]
    · rw [record_place, put_place_of_ne hya, hy]
    · rw [hbehind hc] at hy
      exact hcont (Option.some.inj hy).symm
  intro x c hx hc
  have hxl := (halive x).mp (putCont_alive.mp hx)
  replace hc : (L.jobs x).continuation = some c := by rwa [putCont_jobs] at hc
  by_cases hxa : x = a
  · -- the one that the worker has now
    subst hxa
    have hcx : c ≠ x := ne_of_place ha (hbehind hc) (by simp)
    refine Or.inr (Or.inr
      ⟨i, .countedOff, some (L.jobs x).work, some (L.jobs x).work, le_rfl, ?_, ?_⟩)
    · rw [putCont_place_of_ne fun hc' => hcx (Option.some.inj (hc.symm.trans hc'))]
      exact put_place_self
    · rw [hc]
      exact put_place_self
  · rcases h x c hxl hc with hp | ⟨hp, hl⟩ | ⟨j, k, v, v', hk, hpx, hp⟩
    · exact Or.inl (hstay hp (by simp) fun heq => hxa (Place.cont.inj heq))
    · have hca : c ≠ a := fun hca => by
        rw [hca, ha] at hp
        cases hp
      refine Or.inr (Or.inl ⟨?_, putCont_alive.mpr ((halive c).mpr hl)⟩)
      rw [putCont_place_of_ne fun hc' => ?_, record_place, put_place_of_ne hca, hp]
      rw [hbehind hc'] at hp
      cases hp
    · refine Or.inr (Or.inr ⟨j, k, v, v', hk, hstay hpx ?_ (by simp), hstay hp (by simp) (by simp)⟩)
      rintro heq
      cases heq
      exact absurd hk (by decide)

/-- The job is recycled, and the one behind it runs next. -/
theorem Ledger.Tied.recycle {i : Nat} {via : Option Work} {q : QueueId} {c : Option Addr}
    (h : L.Tied) (ho : L.InOrder) (hone : L.OneEach) (ha : L.place a = some (.run i .recycled via))
    (hc : ∀ b, c = some b ↔ L.place b = some (.next i via)) :
    (((L.put a (.queue q)).record (.recycled (L.jobs a).work)).putCont c
      (.run i .started via)).Tied := by
  intro x d hx hd
  replace hd : (L.jobs x).continuation = some d := by rwa [putCont_jobs] at hd
  obtain ⟨hlive, hrec⟩ : x ∈ L.live ∧ Event.recycled (L.jobs x).work ∉
      Event.recycled (L.jobs a).work :: L.log := putCont_alive.mp hx
  have hxa : x ≠ a := fun hxa => hrec (hxa ▸ List.mem_cons_self)
  have hxl : L.Alive x := ⟨hlive, fun hm => hrec (List.mem_cons_of_mem _ hm)⟩
  have hstay : ∀ {y p}, L.place y = some p → p ≠ .run i .recycled via → p ≠ .next i via →
      (((L.put a (.queue q)).record (.recycled (L.jobs a).work)).putCont c
        (.run i .started via)).place y = some p := by
    intro y p hy hrun hnext
    have hya : y ≠ a := ne_of_place ha hy (Ne.symm hrun)
    rw [putCont_place_of_ne fun hcy => ?_]
    · rw [record_place, put_place_of_ne hya, hy]
    · rw [(hc y).mp hcy] at hy
      exact hnext (Option.some.inj hy).symm
  rcases h x d hxl hd with hp | ⟨hp, hl⟩ | ⟨j, k, v, v', hk, hpx, hp⟩
  · exact Or.inl (hstay hp (by simp) (by simp))
  · have hda : d ≠ a := fun hda => by
      rw [hda, ha] at hp
      cases hp
    refine Or.inr (Or.inl ⟨?_, putCont_alive.mpr ⟨hl.1, fun hm => ?_⟩⟩)
    · rw [putCont_place_of_ne fun hcd => ?_, record_place, put_place_of_ne hda, hp]
      rw [(hc d).mp hcd] at hp
      cases hp
    · rcases List.mem_cons.mp hm with hm | hm
      · exact ho.valid.work_ne (ho.valid.live ha) hl.1 hda (Event.recycled.inj hm).symm
      · exact hl.2 hm
  · -- the other worker is not this one, which has the job `a`
    have hji : j ≠ i := fun hji => hxa (hone hpx (hji ▸ ha))
    exact Or.inr (Or.inr ⟨j, k, v, v', hk, hstay hpx (by simp [hji]) (by simp),
      hstay hp (by simp) (by simp [hji])⟩)

/-- **What a thread does keeps the continuations.** -/
theorem Move.tied (hm : Move n P L L') (ho : L.InOrder) (hone : L.OneEach) (h : L.Tied) :
    L'.Tied := by
  cases hm with
  | construct ha hc => exact h.construct ho (Or.inl ⟨⟨_, ha⟩, rfl⟩)
  | allocate ha hc => exact h.construct ho (Or.inr ⟨ha, rfl⟩)
  | route ha hc | balance ha =>
      exact h.put ha (by simp) (by simp) (by simp) rfl rfl (fun x => ⟨rfl, rfl⟩) (fun w => Iff.rfl)
  | push ha hq | pop ha hq =>
      exact h.put ha (by simp) (by simp) (by simp) rfl rfl (fun x => ⟨rfl, rfl⟩) (by simp)
  | @advance a i k via e ha he =>
      refine h.put ha (by simp) (by simp) ?_ rfl rfl (fun x => ⟨rfl, rfl⟩) ?_
      · rintro j m v hj hm
        cases hj
        exact ⟨k.next, via, rfl, hm.trans k.rank_le_next⟩
      · rcases he with ⟨-, rfl⟩ | ⟨-, rfl⟩ | ⟨-, rfl⟩ <;> simp
  | @fetchSub a i via ha =>
      refine h.put ha (by simp) (by simp) ?_ rfl rfl (fun x => ⟨?_, ?_⟩) (by simp)
      · rintro j m v hj hm
        cases hj
        exact ⟨.completed, via, rfl, by decide⟩
      · by_cases hx : x = a <;> simp [hx]
      · by_cases hx : x = a <;> simp [hx]
  | @attach a b t of ha hab => exact h.attach ho ha
  | @readContinuation a i via ha hf => exact h.readContinuation ho ha
  | @recycle a i via q c ha hq hc => exact h.recycle ho hone ha hc
  | @collect i =>
      intro x c hx hc
      rcases h x c hx hc with hp | ⟨hp, hl⟩ | ⟨i, k, v, v', hk, hpx, hp⟩
      · exact Or.inl (drop_place.mpr ⟨hp, by simp⟩)
      · refine Or.inr (Or.inl ⟨?_, hl⟩)
        simp [Ledger.drop, hp]
      · exact Or.inr (Or.inr ⟨i, k, v, v', hk, drop_place.mpr ⟨hpx, by simp⟩,
          drop_place.mpr ⟨hp, by simp⟩⟩)
  | @note e he =>
      have hlog : ∀ w, .recycled w ∈ (L.record e).log ↔ .recycled w ∈ L.log := by
        intro w
        cases e <;> first | exact he.elim | simp
      intro x c hx hc
      have halive : ∀ y, (L.record e).Alive y ↔ L.Alive y := fun y => by
        rw [Ledger.Alive, Ledger.Alive, hlog]
        rfl
      rw [halive c]
      exact h x c ((halive x).mp hx) hc

end Tied

/-! ## Runs without parents and without a shutdown -/

/-- The action is no call of `shutdown`. -/
def Action.NoShutdown : Action → Prop
  | .shutdown _ => False
  | _ => True

instance : DecidablePred Action.NoShutdown
  | .shutdown _ => .isFalse id
  | .schedule _ _ _ _ | .jobThen _ _ _ _ _ | .call _ | .finish _ | .work _ => .isTrue trivial

section Settled

variable {s s' : State} {place : Addr → Option Place} {x : Action} {a b c : Addr} {p : Place}
variable {i k : Nat} {t : Tid}

theorem callStep_shutdown (hs : callStep s t = some s') : s'.shutdown = s.shutdown := by
  cases callStep_move hs <;> rfl

theorem construct_shutdown (s : State) (t : Tid) (parent : Option Addr)
    (threadIndex : Option Nat) (fresh : Addr) :
    (construct s t parent threadIndex fresh).1.shutdown = s.shutdown := by
  rcases construct_cases s t parent threadIndex fresh with ⟨a, st, -, hc⟩ | ⟨st, -, hc⟩
  · rw [hc]
  · rw [hc]

theorem step_noShutdown (hx : x.NoShutdown) (hs : step s x = some s') :
    s'.shutdown = s.shutdown := by
  cases x with
  | shutdown => exact hx.elim
  | schedule t parent threadIndex fresh =>
      obtain ⟨-, -, -, rfl⟩ := step_schedule hs
      exact construct_shutdown s t (parent.map Prod.snd) threadIndex fresh
  | jobThen t of job threadIndex fresh =>
      obtain ⟨-, -, -, rfl⟩ := step_jobThen hs
      exact construct_shutdown s t none threadIndex fresh
  | call t => exact callStep_shutdown hs
  | finish i =>
      obtain ⟨job, -, -, -, rfl⟩ := step_finish hs
      rfl
  | work i => exact (workerStep_frame (step_work hs).2).shutdown

/-- **What holds in these runs**: the jobs are where `place` says, the continuations are tied to
their jobs, no job has a parent, and all workers are in their loops. -/
structure Settled (s : State) (place : Addr → Option Place) : Prop where
  views : Views s place
  inOrder : (s.ledger place).InOrder
  tied : (s.ledger place).Tied
  rootless : s.Rootless
  shutdown : s.shutdown = false
  stays : ∀ i, (s.worker i).pc.left = false

theorem settled_init (n : Nat) : Settled (init n) fun _ => none where
  views := views_init n
  inOrder := inOrder_init n
  tied := fun a c ha => by cases ha.1
  rootless := rootless_init n
  shutdown := rfl
  stays _ := rfl

theorem Views.oneEach (h : Views s place) : (s.ledger place).OneEach := by
  intro a b i j k v u ha hb
  have ha' := ((h.run i a j v).mpr ha).1
  rw [((h.run i b k u).mpr hb).1] at ha'
  exact (congrArg Prod.fst (Option.some.inj ha')).symm

theorem Settled.step (h : Settled s place) (hx : x.Parentless ∧ x.NoShutdown)
    (hs : JobSystem.step s x = some s') : ∃ place', Settled s' place' := by
  have hacc : Accounted s := ⟨place, h.views, h.inOrder⟩
  have hroot := hacc.step_rootless h.rootless hx.1 hs
  have hrun : s'.shutdown = false := (step_noShutdown hx.2 hs).trans h.shutdown
  have hstays := (not_left_step hs hrun fun _ => h.stays).2
  have hleft : ∀ {i pc}, (s.worker i).pc = pc → pc.left = true → False := by
    intro i pc hpc hl
    rw [← hpc, h.stays i] at hl
    cases hl
  cases step_simulated h.views h.inOrder (h.rootless.noneToTell x) (Policy.any_admits s x) hs with
  | stutter hv hl => exact ⟨place, hv, hl ▸ h.inOrder, hl ▸ h.tied, hroot, hrun, hstays⟩
  | @move place' hv hm =>
      exact ⟨place', hv, hm.inOrder h.inOrder, hm.tied h.inOrder h.views.oneEach h.tied, hroot,
        hrun, hstays⟩
  | free _ _ hpc => exact (hleft hpc rfl).elim
  | clear _ _ hpc => exact (hleft hpc rfl).elim

end Settled

end Bop.JobSystem
