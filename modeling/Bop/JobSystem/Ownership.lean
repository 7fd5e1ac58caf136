import Bop.JobSystem.Refinement
import Mathlib.Data.List.Perm.Subperm

set_option autoImplicit false

/-! # Single ownership, no loss, no duplication

The ledger has one place for each job. Here it is read back in terms of the state: the queues,
the calls and the workers own the jobs, and as long as no worker has left its loop and every
`m_Continuation` that is written is read later, no job is lost either (`Ledger.Kept`).
-/

namespace Bop.JobSystem

/-! ## No job is lost -/

section Kept

variable {n : Nat} {P : Policy}
variable {L L' L₁ : Ledger} {a b : Addr} {p d : Place} {w : Work}

/-- Every work that was handed to the job system is the work of a job in some place, until the
job is recycled. -/
def Ledger.Kept (L : Ledger) : Prop :=
  ∀ w, 0 < w → w < L.nextWork →
    .recycled ∈ trail L.log w ∨ ∃ a p, L.place a = some p ∧ (L.jobs a).work = w

/-- The storage for which a reference was returned holds that job until it is recycled. -/
def Ledger.Handled (L : Ledger) : Prop :=
  ∀ {w a p ti}, .constructed w a p ti ∈ L.log →
    a ∈ L.live ∧ ((L.jobs a).work = w ∨ .recycled ∈ trail L.log w)

/-- The jobs stay where they are, or go elsewhere, or have been recycled. -/
theorem Ledger.Kept.of_keeps (h : L.Kept) (hk : L.Keeps L')
    (hplace : ∀ x p, L.place x = some p →
      (∃ r, L'.place x = some r) ∨ .recycled ∈ trail L.log (L.jobs x).work) : L'.Kept := by
  intro w hpos hlt
  rw [hk.nextWork] at hlt
  rcases h w hpos hlt with hrecycled | ⟨x, p, hx, rfl⟩
  · exact Or.inl (hk.mem_trail hrecycled)
  · rcases hplace x p hx with ⟨r, hr⟩ | hrecycled
    · exact Or.inr ⟨x, r, hr, hk.work x⟩
    · exact Or.inl (hk.mem_trail hrecycled)

theorem Ledger.put_place_isSome {x : Addr} (h : L.place x = some p) :
    ∃ r, (L.put a d).place x = some r := by
  by_cases hx : x = a
  · subst hx
    exact ⟨d, put_place_self⟩
  · exact ⟨p, by rw [put_place_of_ne hx, h]⟩

theorem Ledger.putCont_place_isSome {x : Addr} {c : Option Addr} (h : L.place x = some p) :
    ∃ r, (L.putCont c d).place x = some r := by
  cases c with
  | none => exact ⟨p, h⟩
  | some c => exact put_place_isSome h

/-- A job is made in a storage whose last job was recycled, or that held none. -/
theorem Ledger.Kept.construct {t : Tid} {c : Call} {o : Origin} (h : L.Kept)
    (ho : L.InOrder) (hb : L.Before a L₁) : (L₁.construct a (.call t c) o).Kept := by
  have hlog : ∀ {v}, .recycled ∈ trail L.log v →
      .recycled ∈ trail (L₁.construct a (.call t c) o).log v := by
    intro v hv
    rcases hb with ⟨-, rfl⟩ | ⟨-, rfl⟩
    · exact mem_trail_append [_] hv
    · exact mem_trail_append [_, _] hv
  have hjobs : L₁.jobs = L.jobs ∧ L₁.place = L.place ∧ L₁.nextWork = L.nextWork := by
    rcases hb with ⟨-, rfl⟩ | ⟨-, rfl⟩ <;> exact ⟨rfl, rfl, rfl⟩
  intro w hpos hlt
  by_cases hw : w = L.nextWork
  · exact Or.inr ⟨a, _, Function.update_self .., by simp [Ledger.construct, hjobs.2.2, hw]⟩
  · have hlt' : w < L.nextWork := by
      have hle : w < L.nextWork + 1 := hjobs.2.2 ▸ hlt
      exact lt_of_le_of_ne (Nat.le_of_lt_succ hle) hw
    rcases h w hpos hlt' with hrecycled | ⟨x, p, hx, hxw⟩
    · exact Or.inl (hlog hrecycled)
    · by_cases hxa : x = a
      · subst hxa
        rcases hb with ⟨⟨u, hu⟩, -⟩ | ⟨hu, -⟩
        · exact Or.inl (hlog (hxw ▸ (ho.valid.mem_trail_iff hu).mpr (by simp)))
        · exact absurd (ho.valid.live hx) hu
      · refine Or.inr ⟨x, p, ?_, ?_⟩
        · simp [Ledger.construct, hxa, hjobs.2.1, hx]
        · simp [Ledger.construct, hxa, hjobs.1, hxw]

/-- **No job is lost**, as long as each continuation is written where a worker will still read
it and where there was none before. -/
theorem Move.kept (hm : Move n P L L') (ho : L.InOrder) (h : L.Kept)
    (hatt : ∀ {b of a}, P.attaches b of a → L.Open b ∧ (L.jobs b).continuation = none) :
    L'.Kept := by
  rcases hm.keeps with hk | ⟨a, t, c, o, L₁, hb, -, rfl⟩
  case inr => exact h.construct ho hb
  case inl =>
    refine h.of_keeps hk (fun x p hx => ?_)
    cases hm with
    | construct ha hc => exact Or.inl (Ledger.put_place_isSome hx)
    | allocate ha hc => exact Or.inl (Ledger.put_place_isSome hx)
    | route | balance | push | pop | advance | fetchSub =>
        exact Or.inl (Ledger.put_place_isSome hx)
    | @attach a b t of ha hab =>
        obtain ⟨hopen, hnone⟩ := hatt hab
        by_cases hxa : x = a
        · exact Or.inl ⟨_, Ledger.attach_place.mpr (Or.inl ⟨hxa, hopen, rfl⟩)⟩
        · refine Or.inl ⟨p, Ledger.attach_place.mpr (Or.inr ⟨hxa, hx, fun hpb => ?_⟩)⟩
          -- there was no job behind `b`
          rw [hpb] at hx
          rw [((ho.chained x b).mp hx).2] at hnone
          cases hnone
    | readContinuation ha _ =>
        obtain ⟨r, hr⟩ := Ledger.put_place_isSome (d := .run _ .countedOff _) hx
        exact Or.inl (Ledger.putCont_place_isSome (L := (L.put _ _).record _) hr)
    | recycle ha hq hc =>
        obtain ⟨r, hr⟩ := Ledger.put_place_isSome (d := .queue _) hx
        exact Or.inl (Ledger.putCont_place_isSome (L := (L.put _ _).record _) hr)
    | @collect i =>
        by_cases hp : p = .queue (.garbageBin (.worker i))
        · refine Or.inr ((ho.valid.mem_trail_iff hx).mpr ?_)
          rw [hp]
          simp
        · exact Or.inl ⟨p, Ledger.drop_place.mpr ⟨hx, hp⟩⟩
    | note he => exact Or.inl ⟨p, hx⟩

/-- While no storage is returned, a reference stays good until the job is recycled. -/
theorem Move.handled (hm : Move n P L L') (ho : L.InOrder) (h : L.Handled) :
    L'.Handled := by
  rcases hm.keeps with hk | ⟨a, t, c, o, L₁, hb, -, rfl⟩
  case inl =>
    intro w a p ti hc
    obtain ⟨es, hes, hno⟩ := hk.log
    rw [hes] at hc
    obtain ⟨hl, hw⟩ := h ((List.mem_append.mp hc).resolve_left fun he => by cases hno _ he)
    rw [hk.live, hk.work]
    exact ⟨hl, hw.imp id hk.mem_trail⟩
  case inr =>
    have hsub : L₁.jobs = L.jobs ∧ L₁.live = L.live ∧ L₁.nextWork = L.nextWork ∧
        (∀ {v k}, k ∈ trail L.log v → k ∈ trail L₁.log v) ∧
        ∀ {w x p ti}, .constructed w x p ti ∈ L₁.log → .constructed w x p ti ∈ L.log := by
      rcases hb with ⟨-, rfl⟩ | ⟨-, rfl⟩
      · exact ⟨rfl, rfl, rfl, id, id⟩
      · refine ⟨rfl, rfl, rfl, mem_trail_append [_], fun hc => ?_⟩
        simpa [Ledger.record] using hc
    obtain ⟨hjobs, hlive, hnext, htrail, hcon⟩ := hsub
    have hmem : ∀ {x}, x = a ∨ x ∈ L.live → x ∈ (L₁.construct a (.call t c) o).live := by
      intro x hx
      by_cases ha : a ∈ L.live
      · simpa [Ledger.construct, hlive, ha] using hx.elim (fun hxa => hxa ▸ ha) id
      · simpa [Ledger.construct, hlive, ha] using hx
    intro w x p ti' hc
    rcases List.mem_cons.mp hc with hc | hc
    · cases hc
      exact ⟨hmem (Or.inl rfl), Or.inl (by simp [Ledger.construct, hnext])⟩
    · obtain ⟨hl, hw⟩ := h (hcon hc)
      refine ⟨hmem (Or.inr hl), ?_⟩
      by_cases hxa : x = a
      · subst hxa
        refine Or.inr (mem_trail_append [_] (htrail ?_))
        -- the last job of this storage was recycled
        rcases hb with ⟨⟨u, hu⟩, -⟩ | ⟨hu, -⟩
        · exact hw.elim (fun hxw => hxw ▸ (ho.valid.mem_trail_iff hu).mpr (by simp)) id
        · exact absurd hl hu
      · refine hw.imp (fun hxw => ?_) (fun hrecycled => mem_trail_append [_] (htrail hrecycled))
        simp [Ledger.construct, hxa, hjobs, hxw]

/-- No job is behind another one. -/
def Ledger.Unchained (L : Ledger) : Prop :=
  ∀ a, (∀ b, L.place a ≠ some (.cont b)) ∧ ∀ i v, L.place a ≠ some (.next i v)

theorem Ledger.Unchained.put (h : L.Unchained) (hc : ∀ b, d ≠ .cont b)
    (hn : ∀ i v, d ≠ .next i v) : (L.put a d).Unchained := by
  intro x
  by_cases hx : x = a
  · subst hx
    rw [put_place_self]
    exact ⟨fun b hb => hc b (Option.some.inj hb), fun i v hb => hn i v (Option.some.inj hb)⟩
  · rw [put_place_of_ne hx]
    exact h x

/-- Without a call of `then` there are no continuations. -/
theorem Move.unchained (hm : Move n P L L') (ho : L.InOrder) (h : L.Unchained)
    (hatt : ∀ {b of a}, ¬ P.attaches b of a) : L'.Unchained := by
  cases hm with
  | construct ha hc => exact h.put (by simp) (by simp)
  | allocate ha hc => exact h.put (by simp) (by simp)
  | route ha hc => exact h.put (by simp) (by simp)
  | balance ha => exact h.put (by simp) (by simp)
  | push ha hq => exact h.put (by simp) (by simp)
  | attach ha hab => exact absurd hab hatt
  | pop ha hq => exact h.put (by simp) (by simp)
  | advance ha he => exact h.put (by simp) (by simp)
  | @readContinuation a i via ha _ =>
      have hput : (L.put a (.run i .countedOff (some (L.jobs a).work))).Unchained :=
        h.put (by simp) (by simp)
      cases hc : (L.jobs a).continuation with
      | none => exact hput
      | some c => exact absurd (ho.behind ha hc) ((h c).1 a)
  | fetchSub ha => exact h.put (by simp) (by simp)
  | @recycle a i via q c ha hq hc =>
      have hput : (L.put a (.queue q)).Unchained := h.put (by simp) (by simp)
      cases c with
      | none => exact hput
      | some c =>
          exact Ledger.Unchained.put (L := (L.put a (.queue q)).record _) hput
            (by simp) (by simp)
  | collect =>
      intro x
      exact ⟨fun b hb => (h x).1 b (Ledger.drop_place.mp hb).1,
        fun i v hb => (h x).2 i v (Ledger.drop_place.mp hb).1⟩
  | note he => exact h

end Kept

/-! ## Without `then` -/

/-- The action is no call of `then`. -/
def Action.NoThen : Action → Prop
  | .jobThen _ _ _ _ _ => False
  | _ => True

instance : DecidablePred Action.NoThen
  | .jobThen _ _ _ _ _ => .isFalse id
  | .schedule _ _ _ _ | .call _ | .shutdown _ | .finish _ | .work _ => .isTrue trivial

section NoThen

variable {s s' : State} {x : Action} {n : Nat} {tr : List (State × Action)}

theorem noAttach_callStep {t : Tid} (h : ∀ t b of a, s.call t ≠ .attach b of a)
    (hs : callStep s t = some s') : ∀ t b of a, s'.call t ≠ .attach b of a := by
  have hset : ∀ {c : Call}, (∀ b of a, c ≠ .attach b of a) →
      ∀ u b of a, Function.update s.call t c u ≠ .attach b of a := by
    intro c hc u b of a
    by_cases hu : u = t
    · subst hu
      rw [Function.update_self]
      exact hc b of a
    · rw [Function.update_of_ne hu]
      exact h u b of a
  cases callStep_move hs with
  | shared | own | balance | pushGlobal | pushLocal | reread => exact hset (by simp)
  | attach hc => exact absurd hc (h t _ _ _)

theorem noAttach_step (hx : x.NoThen) (h : ∀ t b of a, s.call t ≠ .attach b of a)
    (hs : step s x = some s') : ∀ t b of a, s'.call t ≠ .attach b of a := by
  cases x with
  | schedule t parent ti fresh =>
      obtain ⟨-, -, -, rfl⟩ := step_schedule hs
      intro u b of a
      show Function.update (construct s t (parent.map Prod.snd) ti fresh).1.call t _ u ≠ _
      rw [construct_call]
      by_cases hu : u = t
      · subst hu
        rw [Function.update_self]
        simp
      · rw [Function.update_of_ne hu]
        exact h u b of a
  | jobThen t of job ti fresh => exact absurd hx id
  | call t => exact noAttach_callStep h hs
  | shutdown t =>
      obtain ⟨-, rfl⟩ := step_shutdown hs
      exact h
  | finish | work =>
      intro t
      rw [step_call (by simp [Action.caller]) hs]
      exact h t

/-- No continuation is written. -/
def Policy.noAttaches : Policy := { Policy.any with attaches := fun _ _ _ => False }

theorem noAttaches_admits (h : ∀ t b of a, s.call t ≠ .attach b of a) :
    Policy.noAttaches.Admits s x :=
  ⟨fun _ => trivial, fun _ hc => absurd hc (h _ _ _ _), fun _ _ _ => trivial⟩

/-- What holds in runs without parents and `then`, while all workers are in their loops. -/
structure Conserved (s : State) (place : Addr → Option Place) : Prop where
  kept : (s.ledger place).Kept
  handled : (s.ledger place).Handled
  unchained : (s.ledger place).Unchained

/-- The invariant of the runs without parents and `then`. -/
def Owned (s : State) : Prop :=
  (∀ t b of a, s.call t ≠ .attach b of a) ∧
    ∃ place, Views s place ∧ (s.ledger place).InOrder ∧
      ((∀ i, (s.worker i).pc.left = false) → Conserved s place)

theorem owned_init (n : Nat) : Owned (init n) :=
  ⟨fun t b of a => by simp [init], _, views_init n, inOrder_init n, fun _ =>
    ⟨fun w hpos hlt => absurd hlt (Nat.not_lt.mpr (Nat.succ_le_of_lt hpos)),
      fun hc => by simp [State.ledger, init] at hc,
      fun a => by simp [State.ledger]⟩⟩

theorem Owned.step (h : Owned s) (hx : s.NoneToTell x ∧ x.NoThen) (hs : step s x = some s') :
    Owned s' := by
  obtain ⟨hna, place, hv, ho, hcon⟩ := h
  have hsim := step_simulated hv ho hx.1 (noAttaches_admits hna) hs
  refine ⟨noAttach_step hx.2 hna hs, ?_⟩
  -- a worker that is in its loop now was there before
  have hback : (∀ i, (s'.worker i).pc.left = false) → ∀ i, (s.worker i).pc.left = false := by
    intro hin i
    by_contra hl
    have hleft := left_step hs (Bool.not_eq_false _ ▸ hl)
    rw [hin i] at hleft
    cases hleft
  cases hsim with
  | @stutter hv' hl =>
      refine ⟨place, hv', hl ▸ ho, fun hin => ?_⟩
      obtain ⟨hk, hh, hu⟩ := hcon (hback hin)
      exact ⟨hl ▸ hk, hl ▸ hh, hl ▸ hu⟩
  | @move place' hv' hm =>
      refine ⟨place', hv', hm.inOrder ho, fun hin => ?_⟩
      obtain ⟨hk, hh, hu⟩ := hcon (hback hin)
      exact ⟨hm.kept ho hk (fun hf => hf.elim), hm.handled ho hh, hm.unchained ho hu id⟩
  | @free place' i r a hv' _ hpc ha hl =>
      refine ⟨place', hv', hl ▸ ho.free ha, fun hin => ?_⟩
      have hi := hback hin i
      rw [hpc] at hi
      cases hi
  | @clear place' i r e hv' _ hpc he hl =>
      refine ⟨place', hv', hl ▸ ho.clear he, fun hin => ?_⟩
      have hi := hback hin i
      rw [hpc] at hi
      cases hi

theorem run_owned (h : Transition.Run step (init n) tr s)
    (hx : ∀ p ∈ tr, p.2.Parentless ∧ p.2.NoThen) : Owned s :=
  h.invariant (C := fun s x => s.NoneToTell x ∧ x.NoThen) (owned_init n) Owned.step
    fun p hp => ⟨run_noneToTell h (fun q hq => (hx q hq).1) p hp, (hx p hp).2⟩

end NoThen

/-! ## Owners -/

/-- Who can have a job: a queue or a bin, a thread in `schedule`, a worker that runs it. -/
inductive Owner
  | queue (q : QueueId)
  | caller (t : Tid)
  | worker (i : Nat)
  deriving DecidableEq

def State.Owns (s : State) (a : Addr) : Owner → Prop
  | .queue q => s.store.Linked q a
  | .caller t => (s.call t).job = some a
  | .worker i => (s.worker i).pc.current.map Prod.fst = some a

/-- The job is in a queue, or with the thread that is about to push or to run it. -/
def State.Waits (s : State) (a : Addr) : Prop :=
  (∃ q, q.isBin = false ∧ s.store.Linked q a) ∨ (∃ t, (s.call t).job = some a) ∨
    ∃ i, (s.worker i).pc.current = some (a, .started)

def Event.starts (w : Work) : Event → Bool
  | .started v _ _ => v = w
  | _ => false

/-- The owner of a job in a place. -/
def Place.owner : Place → Option Owner
  | .queue q => some (.queue q)
  | .call t _ => some (.caller t)
  | .run i _ _ => some (.worker i)
  | .next _ _ | .cont _ => none

section Claims

variable {s : State} {place : Addr → Option Place} {a : Addr} {n : Nat} {w : Work}
variable {tr : List (State × Action)}

/-- Who owns a job is said by the place of the job. -/
theorem Views.owner (h : Views s place) {o : Owner} (ho : s.Owns a o) :
    ∃ p, place a = some p ∧ p.owner = some o := by
  cases o with
  | queue q => exact ⟨.queue q, (h.queue q a).mp ho, rfl⟩
  | caller t => exact ⟨.call t (s.call t), (h.call t _ a).mp ⟨rfl, ho⟩, rfl⟩
  | worker i =>
      obtain ⟨⟨b, k⟩, hcur, rfl⟩ := Option.map_eq_some_iff.mp ho
      exact ⟨.run i k _, (h.run i b k _).mp ⟨hcur, rfl⟩, rfl⟩

theorem Views.owner_unique (h : Views s place) {o o' : Owner} (ho : s.Owns a o)
    (ho' : s.Owns a o') : o = o' := by
  obtain ⟨p, hp, hpo⟩ := h.owner ho
  obtain ⟨p', hp', hpo'⟩ := h.owner ho'
  obtain rfl : p = p' := Option.some.inj (hp.symm.trans hp')
  exact Option.some.inj (hpo.symm.trans hpo')

/-- A job that has passed no stage yet waits to be run. -/
theorem Views.waits {p : Place} (h : Views s place) (hu : (s.ledger place).Unchained)
    (ha : place a = some p) (hp : p.stage = 0) : s.Waits a := by
  cases p with
  | queue q =>
      refine Or.inl ⟨q, ?_, (h.queue q a).mpr ha⟩
      cases q <;> first | rfl | cases hp
  | call t c =>
      obtain ⟨rfl, hc⟩ := (h.call t c a).mpr ha
      exact Or.inr (Or.inl ⟨t, hc⟩)
  | run i m v =>
      obtain rfl : m = .started := by cases m <;> first | rfl | cases hp
      exact Or.inr (Or.inr ⟨i, ((h.run i a .started v).mpr ha).1⟩)
  | next i v => exact absurd ha ((hu a).2 i v)
  | cont b => exact absurd ha ((hu a).1 b)

theorem Ledger.Valid.started_le {L : Ledger} (h : L.Valid) (w : Work) :
    L.log.countP (Event.starts w) ≤ 1 := by
  have hmark : Event.starts w = fun e => decide (e.mark = some (w, .started)) := by
    funext e
    cases e <;> simp [Event.starts, Event.mark]
  rw [hmark, ← count_trail]
  exact h.count_le w .started

/-- **Single ownership, no loss, no duplication.** Take a run in which jobs are scheduled
without a parent and without `then`, and a state of it in which all workers are in their loops.
Each job is linked once, in one queue or bin, or held by one thread. A work was started once at
most, by one worker. A work that was not started is the work of a job that waits. Whoever reads
zero in the counter of the reference that `schedule` returned finds the work executed. -/
theorem single_ownership (h : Transition.Run step (init n) tr s)
    (hx : ∀ p ∈ tr, p.2.Parentless ∧ p.2.NoThen)
    (hin : ∀ i < n, (s.worker i).pc.left = false) :
    s.store.WellFormed ∧
      (∀ a o o', s.Owns a o → s.Owns a o' → o = o') ∧
      (∀ w, s.log.countP (Event.starts w) ≤ 1 ∧
        ∀ i j v v', .started w i v ∈ s.log → .started w j v' ∈ s.log → i = j) ∧
      (∀ w a p ti, .constructed w a p ti ∈ s.log → (∀ i v, .started w i v ∉ s.log) →
        (s.jobs a).work = w ∧ s.Waits a) ∧
      ∀ w a, .scheduled w a ∈ s.log → (s.jobs a).numChildren = 0 → .finished w ∈ s.log := by
  obtain ⟨-, place, hv, ho, hcon⟩ := run_owned h hx
  obtain ⟨hkept, hhandled, hunchained⟩ := hcon fun i => by
    by_cases hi : i < n
    · exact hin i hi
    · rw [(worker_outside h).2 i (Nat.le_of_not_lt hi)]
      rfl
  have hval := ho.valid
  refine ⟨hv.store, fun a o o' => hv.owner_unique, fun w => ⟨hval.started_le w, ?_⟩, ?_, ?_⟩
  · intro i j v v' hi hj
    by_contra hij
    -- two different events that start the same work
    have hne : Event.started w i v ≠ Event.started w j v' := fun he => hij (by cases he; rfl)
    have hsub : [Event.started w i v, Event.started w j v'] ⊆ s.log := by
      simp [hi, hj]
    have hnd : [Event.started w i v, Event.started w j v'].Nodup := by simp [hne]
    have hcount := (List.subperm_of_subset hnd hsub).countP_le (Event.starts w)
    have hle := hval.started_le w
    simp only [List.countP_cons, List.countP_nil, Event.starts, decide_true] at hcount
    exact absurd (hcount.trans hle) (by simp)
  · intro w a p ti hc hns
    have hlog : trail s.log w = [] := by
      obtain ⟨k, -, hk⟩ := hval.stage_le w
      have hk0 : ¬ 0 < k := fun hbegan => by
        obtain ⟨i, v, hst⟩ := started_iff.mp ((hk ▸ mem_passed.mpr hbegan : .started ∈ trail s.log w))
        exact hns i v hst
      obtain rfl : k = 0 := by omega
      exact hk
    obtain ⟨hlt, hall⟩ := hval.constructed hc
    have hpos : 0 < w := by
      obtain ⟨hl, hw | hrecycled⟩ := hhandled hc
      · exact hw ▸ hval.work_pos hl
      · rw [show (s.ledger place).log = s.log from rfl, hlog] at hrecycled
        cases hrecycled
    rcases hkept w hpos hlt with hrecycled | ⟨b, r, hb, hbw⟩
    · rw [show (s.ledger place).log = s.log from rfl, hlog] at hrecycled
      cases hrecycled
    · obtain ⟨rfl, -⟩ := hall b (hval.live hb) hbw
      refine ⟨hbw, hv.waits hunchained hb (passed_eq_nil.mp ?_)⟩
      rw [← hval.stage hb, hbw]
      exact hlog
  · intro w a hsch hzero
    obtain ⟨p, ti, hc⟩ := hval.scheduled hsch
    obtain ⟨hl, hw | hrecycled⟩ := hhandled hc
    · have hoff : .countedOff ∈ trail s.log (s.jobs a).work := by
        by_contra hoff
        rw [show (s.jobs a).numChildren = 1 from hval.counter_one hl hoff] at hzero
        cases hzero
      exact finished_iff.mp (hw ▸ hval.mem_trail_of_le hoff (by decide))
    · exact finished_iff.mp (hval.mem_trail_of_le hrecycled (by decide))

/-- One worker runs a job up to the end of its `fetch_sub`. -/
theorem single_ownership_executed : ∃ tr s, Transition.Run step (init 1) tr s ∧
    .scheduled 1 7 ∈ s.log ∧ (s.jobs 7).numChildren = 0 ∧ .finished 1 ∈ s.log := by
  have hexec : ((Transition.exec step (fun _ x => x.Parentless ∧ x.NoThen) (init 1)
      ([Action.schedule (.client 0) none none 7, .call (.client 0), .call (.client 0),
        .call (.client 0)] ++ List.replicate 10 (.work 0) ++ [Action.finish 0] ++
        List.replicate 4 (.work 0))).any fun s => decide ((∀ i < (1 : Nat),
          (s.worker i).pc.left = false) ∧ .scheduled 1 7 ∈ s.log ∧
          (s.jobs 7).numChildren = 0)) = true := by decide
  obtain ⟨tr, s, hrun, -, hx, hs⟩ := Transition.exists_run_of_exec hexec
  obtain ⟨hin, hsch, hzero⟩ := of_decide_eq_true hs
  exact ⟨tr, s, hrun, hsch, hzero, (single_ownership hrun hx hin).2.2.2.2 1 7 hsch hzero⟩

end Claims

end Bop.JobSystem
