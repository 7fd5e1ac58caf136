import Bop.JobSystem.Refinement

set_option autoImplicit false

/-! # Parents and children

`m_NumChildren` is meant to count the job itself and the jobs that were scheduled with it as
their parent: `job_completed` decrements it once for each of them, and the hand-over of the
parent to a continuation increments it. `construct` writes `m_Parent` and does not increment
anything, so the counter of a parent is too small from then on.

`child_accounting_iff` says that this is the only defect: the accounting is right in all the
states of a run iff no job of the run is scheduled with a parent.
-/

namespace Bop.JobSystem

/-! ## Started jobs -/

section Running

variable {n : Nat} {P : Policy}
variable {L L' : Ledger} {a : Addr} {d : Place} {e : Event}

/-- A job that was started is at a worker until it is recycled. -/
def Ledger.Running (L : Ledger) : Prop :=
  ∀ w, .started ∈ trail L.log w → .recycled ∉ trail L.log w →
    ∃ a i k v, L.place a = some (.run i k v) ∧ (L.jobs a).work = w

/-- The jobs at the workers stay at the workers or are recycled. -/
theorem Ledger.Running.of_keep (h : L.Running)
    (hmono : ∀ w k, k ∈ trail L.log w → k ∈ trail L'.log w)
    (hnew : ∀ w, .started ∈ trail L'.log w → .started ∈ trail L.log w ∨
      ∃ x i k v, L'.place x = some (.run i k v) ∧ (L'.jobs x).work = w)
    (hkeep : ∀ x i k v, L.place x = some (.run i k v) → .recycled ∈ trail L'.log (L.jobs x).work ∨
      ((∃ j m u, L'.place x = some (.run j m u)) ∧ (L'.jobs x).work = (L.jobs x).work)) :
    L'.Running := by
  intro w hbegan hrecycled
  rcases hnew w hbegan with hbegan | hrun
  · obtain ⟨x, i, k, v, hx, rfl⟩ := h w hbegan (fun hrecycled' => hrecycled (hmono w .recycled hrecycled'))
    rcases hkeep x i k v hx with hrecycled' | ⟨⟨j, m, u, hx'⟩, hw⟩
    · exact absurd hrecycled' hrecycled
    · exact ⟨x, j, m, u, hx', hw⟩
  · exact hrun

/-- Moving a job that is at no worker, and recording nothing about stages. -/
theorem Ledger.Running.of_unmarked (h : L.Running) (hlog : ∀ w, trail L'.log w = trail L.log w)
    (hkeep : ∀ x i k v, L.place x = some (.run i k v) → L'.place x = some (.run i k v) ∧
      (L'.jobs x).work = (L.jobs x).work) : L'.Running := by
  refine h.of_keep (fun w k hk => hlog w ▸ hk) (fun w hbegan => Or.inl (hlog w ▸ hbegan)) ?_
  intro x i k v hx
  obtain ⟨hx', hw⟩ := hkeep x i k v hx
  exact Or.inr ⟨⟨i, k, v, hx'⟩, hw⟩

theorem Ledger.put_run (ha : ∀ i k v, L.place a ≠ some (.run i k v)) {x : Addr} {i : Nat}
    {k : Stage}
    {v : Option Work} (hx : L.place x = some (.run i k v)) :
    (L.put a d).place x = some (.run i k v) := by
  have hxa : x ≠ a := fun hxa => ha i k v (hxa ▸ hx)
  rw [put_place_of_ne hxa, hx]

/-- The job of a worker passes a stage. -/
theorem Ledger.Running.pass {i : Nat} {k m : Stage} {v u : Option Work} {j : Job} (h : L.Running)
    (ha : L.place a = some (.run i k v)) (he : e.mark = some ((L.jobs a).work, m))
    (hj : j.work = (L.jobs a).work) :
    (((L.put a (.run i k.next u)).setJob a j).record e).Running := by
  have htr : ∀ w, trail (e :: L.log) w =
      if (L.jobs a).work = w then m :: trail L.log w else trail L.log w :=
    fun w => trail_marked he
  refine h.of_keep (fun w l hl => ?_) (fun w hbegan => ?_) (fun x j' l z hx => Or.inr ⟨?_, ?_⟩)
  · show l ∈ trail (e :: L.log) w
    rw [htr]
    by_cases hw : (L.jobs a).work = w
    · rw [if_pos hw]
      exact List.mem_cons_of_mem _ hl
    · rw [if_neg hw]
      exact hl
  · have hbegan' : .started ∈ trail (e :: L.log) w := hbegan
    rw [htr] at hbegan'
    by_cases hw : (L.jobs a).work = w
    · refine Or.inr ⟨a, i, k.next, u, put_place_self, ?_⟩
      show (Function.update L.jobs a j a).work = w
      rw [Function.update_self, hj, hw]
    · rw [if_neg hw] at hbegan'
      exact Or.inl hbegan'
  · by_cases hxa : x = a
    · subst hxa
      exact ⟨i, k.next, u, put_place_self⟩
    · exact ⟨j', l, z, by rw [← hx]; exact put_place_of_ne hxa⟩
  · exact update_field Job.work hj x

theorem Move.running (hm : Move n P L L') (ho : L.InOrder) (h : L.Running) :
    L'.Running := by
  cases hm with
  | @construct a t c o ha hc =>
      refine h.of_unmarked (fun w => trail_unmarked rfl) (fun x i k v hx => ?_)
      have hxa : x ≠ a := fun hxa => by
        rw [hxa, ha] at hx
        cases hx
      simp [Ledger.construct, hxa, hx]
  | @allocate a t c o ha hc =>
      refine h.of_unmarked (fun w => (trail_unmarked rfl).trans (trail_unmarked rfl))
        (fun x i k v hx => ?_)
      have hxa : x ≠ a := fun hxa => ha (hxa ▸ ho.valid.live hx)
      simp [Ledger.construct, Ledger.record, hxa, hx]
  | route ha hc =>
      exact h.of_unmarked (fun _ => rfl)
        (fun x i k v hx => ⟨Ledger.put_run (by simp [ha]) hx, rfl⟩)
  | balance ha =>
      exact h.of_unmarked (fun _ => rfl)
        (fun x i k v hx => ⟨Ledger.put_run (by simp [ha]) hx, rfl⟩)
  | push ha hq =>
      exact h.of_unmarked (fun _ => trail_unmarked rfl)
        (fun x i k v hx => ⟨Ledger.put_run (by simp [ha]) hx, rfl⟩)
  | @attach a b t of ha hab =>
      have hwork : ∀ x, ((L.attach b of a).jobs x).work = (L.jobs x).work :=
        Ledger.update_field Job.work rfl
      refine h.of_unmarked (fun _ => trail_unmarked rfl) (fun x i k v hx => ⟨?_, hwork x⟩)
      refine Ledger.attach_place.mpr (Or.inr ⟨fun hxa => ?_, hx, by simp⟩)
      rw [hxa, ha] at hx
      cases hx
  | pop ha hq =>
      exact h.of_unmarked (fun _ => rfl)
        (fun x i k v hx => ⟨Ledger.put_run (by simp [ha]) hx, rfl⟩)
  | @advance a i k via e ha he =>
      have hmark : ∃ m, e.mark = some ((L.jobs a).work, m) := by
        rcases he with ⟨-, rfl⟩ | ⟨-, rfl⟩ | ⟨-, rfl⟩ <;> exact ⟨_, rfl⟩
      obtain ⟨m, hm⟩ := hmark
      have hpass := h.pass (u := via) ha hm (j := L.jobs a) rfl
      rwa [show (L.put a (.run i k.next via)).setJob a (L.jobs a) = L.put a (.run i k.next via)
        by simp [Ledger.setJob, Ledger.put]] at hpass
  | @readContinuation a i via ha _ =>
      have hpass := h.pass (u := some (L.jobs a).work) ha (j := L.jobs a) (m := .continuationRead)
        (e := .continuationRead (L.jobs a).work) rfl rfl
      have hput : ((L.put a (.run i .countedOff (some (L.jobs a).work))).record
          (.continuationRead (L.jobs a).work)).Running := by
        simpa [Ledger.setJob, Ledger.put, Stage.next] using hpass
      cases hc : (L.jobs a).continuation with
      | none => exact hput
      | some c =>
          -- the continuation was behind `a`, not at a worker
          have hca : L.place c = some (.cont a) := ho.behind ha hc
          have hc' : (L.put a (.run i .countedOff (some (L.jobs a).work))).place c =
              some (.cont a) :=
            Ledger.put_place_keep ha hca (by simp)
          exact hput.of_unmarked (fun _ => rfl) (fun x j k v hx =>
            ⟨Ledger.put_run (L := (L.put _ _).record _) (by simp [hc']) hx, rfl⟩)
  | fetchSub ha => exact h.pass ha rfl rfl
  | @recycle a i via q c ha hq hc =>
      have htr : ∀ w, trail (.recycled (L.jobs a).work :: L.log) w =
          if (L.jobs a).work = w then .recycled :: trail L.log w else trail L.log w :=
        fun w => trail_marked rfl
      have hput : ((L.put a (.queue q)).record (.recycled (L.jobs a).work)).Running := by
        refine h.of_keep (fun w k hk => mem_trail_cons hk) (fun w hbegan => Or.inl ?_)
          (fun x j k v hx => ?_)
        · have hbegan' : .started ∈ trail (.recycled (L.jobs a).work :: L.log) w := hbegan
          rw [htr] at hbegan'
          by_cases hw : (L.jobs a).work = w
          · simpa [hw] using hbegan'
          · rwa [if_neg hw] at hbegan'
        · by_cases hxa : x = a
          · subst hxa
            refine Or.inl ?_
            show .recycled ∈ trail (.recycled (L.jobs x).work :: L.log) _
            rw [htr, if_pos rfl]
            exact List.mem_cons_self
          · exact Or.inr ⟨⟨j, k, v, by rw [← hx]; exact Ledger.put_place_of_ne hxa⟩, rfl⟩
      cases c with
      | none => exact hput
      | some c =>
          have hcn : L.place c = some (.next i via) := (hc c).mp rfl
          have hc' : (L.put a (.queue q)).place c = some (.next i via) :=
            Ledger.put_place_keep ha hcn (by simp)
          exact hput.of_unmarked (fun _ => rfl) (fun x j k v hx =>
            ⟨Ledger.put_run (L := (L.put _ _).record _) (by simp [hc']) hx, rfl⟩)
  | collect =>
      exact h.of_unmarked (fun _ => rfl)
        (fun x i k v hx => ⟨Ledger.drop_place.mpr ⟨hx, by simp⟩, rfl⟩)
  | @note e he =>
      have hmark : e.mark = none := by cases e <;> first | rfl | exact he.elim
      exact h.of_unmarked (fun _ => trail_unmarked hmark) (fun x i k v hx => ⟨hx, rfl⟩)

theorem Ledger.Running.free {q : QueueId} (h : L.Running) (ha : L.place a = some (.queue q)) :
    (L.free a).Running := by
  refine h.of_unmarked (fun _ => trail_unmarked rfl) (fun x i k v hx => ⟨?_, rfl⟩)
  refine free_place.mpr ⟨fun hxa => ?_, hx, by simp⟩
  rw [hxa, ha] at hx
  cases hx

theorem Ledger.Running.clear {q : QueueId} (h : L.Running) (he : e.Note L) :
    ((L.drop fun p => p = .queue q).record e).Running := by
  have hmark : e.mark = none := by cases e <;> first | rfl | exact he.elim
  exact h.of_unmarked (fun _ => trail_unmarked hmark)
    (fun x i k v hx => ⟨drop_place.mpr ⟨hx, by simp⟩, rfl⟩)

end Running

/-! ## The accounting -/

/-- The job of `w` is in the storage `a` and not completed yet. -/
def State.Pending (s : State) (w : Work) (a : Addr) : Prop :=
  a ∈ s.live ∧ (s.jobs a).work = w ∧ .completed w ∉ s.log

instance (s : State) (w : Work) (a : Addr) : Decidable (s.Pending w a) :=
  inferInstanceAs (Decidable (_ ∧ _ ∧ _))

/-- The event is the `fetch_sub` of `job_completed` for the job's own run. -/
def Event.countsOff (w : Work) : Event → Bool
  | .fetchSub v _ own => v = w ∧ own
  | _ => false

/-- `1` until `job_completed` was called for the job's own run. -/
def State.ownPart (s : State) (w : Work) : Nat := if s.log.any (Event.countsOff w) then 0 else 1

/-- The number of jobs with the parent `a` that are not completed yet. -/
def State.openChildren (s : State) (a : Addr) : Nat :=
  s.live.countP fun c => (s.jobs c).parent = some a ∧ .completed (s.jobs c).work ∉ s.log

/-- The jobs for which a worker is inside `job_completed`. -/
def Pc.completing : Pc → List Addr
  | .complete (.fetchSub a callers) _ | .complete (.ascend a callers) _
  | .complete (.recycle a callers) _ => a :: callers
  | _ => []

/-- A worker that has a completed job is about to recycle it. -/
theorem Pc.mem_completing {pc : Pc} {a : Addr} (h : pc.current = some (a, .recycled)) :
    a ∈ pc.completing := by
  cases pc with
  | complete c d =>
      cases c with
      | recycle b callers =>
          obtain rfl : b = a := congrArg Prod.fst (Option.some.inj h)
          exact List.mem_cons_self
      | fetchSub b callers | ascend b callers => simp [current] at h
  | stealCount j | stealTest j | execute j => cases j <;> simp [current] at h
  | _ => simp [current] at h

/-- **The accounting is right**: each counter is what it is meant to be, no counter was
decremented at zero, every job is recycled once when it is completed, and a completed job has
been executed together with all the jobs that were scheduled with it as their parent. -/
structure State.CountsRight (s : State) : Prop where
  counter : ∀ w a, s.Pending w a → (s.jobs a).numChildren = s.ownPart w + s.openChildren a
  above_zero : ∀ w r own, .fetchSub w r own ∈ s.log → 0 < r
  recycled_le : ∀ w, s.log.countP (· = .recycled w) ≤ 1
  recycled : ∀ w, .completed w ∈ s.log → .recycled w ∈ s.log ∨
    ∃ i, ∃ a ∈ (s.worker i).pc.completing, (s.jobs a).work = w
  finished : ∀ w, .completed w ∈ s.log → .finished w ∈ s.log ∧
    ∀ v a ti, .constructed v a (some w) ti ∈ s.log → .finished v ∈ s.log

/-- The job that is passed as the parent is not yet completed. -/
def Action.ParentPending (s : State) : Action → Prop
  | .schedule _ (some p) _ _ => s.Pending p.1 p.2
  | _ => True

instance (s : State) : DecidablePred (Action.ParentPending s)
  | .schedule _ (some p) _ _ => inferInstanceAs (Decidable (s.Pending p.1 p.2))
  | .schedule _ none _ _ | .jobThen _ _ _ _ _ | .call _ | .shutdown _ | .finish _ | .work _ =>
      .isTrue trivial

section Claims

variable {s s' : State} {x : Action} {n : Nat} {tr : List (State × Action)}

/-- The invariant of the runs in which no job has a parent. -/
def Orphaned (s : State) : Prop :=
  s.Rootless ∧ ∃ place, Views s place ∧ (s.ledger place).InOrder ∧ (s.ledger place).Running

theorem orphaned_init (n : Nat) : Orphaned (init n) :=
  ⟨rootless_init n, _, views_init n, inOrder_init n,
    fun w hbegan => by simp [State.ledger, init, trail] at hbegan⟩

theorem Orphaned.step (h : Orphaned s) (hx : x.Parentless) (hs : step s x = some s') :
    Orphaned s' := by
  obtain ⟨hroot, place, hv, ho, hr⟩ := h
  have hsim := step_simulated hv ho (hroot.noneToTell x) (Policy.any_admits s x) hs
  refine ⟨Accounted.step_rootless ⟨place, hv, ho⟩ hroot hx hs, ?_⟩
  cases hsim with
  | stutter hv' hl => exact ⟨_, hv', hl ▸ ho, hl ▸ hr⟩
  | move hv' hm => exact ⟨_, hv', hm.inOrder ho, hm.running ho hr⟩
  | free hv' _ _ ha hl => exact ⟨_, hv', hl ▸ ho.free ha, hl ▸ hr.free ha⟩
  | clear hv' _ _ he hl => exact ⟨_, hv', hl ▸ ho.clear he, hl ▸ hr.clear he⟩

theorem Orphaned.ownPart {w : Work} (h : Orphaned s) :
    s.ownPart w = if .countedOff ∈ trail s.log w then 0 else 1 := by
  obtain ⟨-, place, -, ho, -⟩ := h
  have hiff : s.log.any (Event.countsOff w) = true ↔ .countedOff ∈ trail s.log w := by
    rw [List.any_eq_true, countedOff_iff]
    constructor
    · rintro ⟨e, he, hc⟩
      cases e <;> simp [Event.countsOff] at hc
      obtain ⟨rfl, rfl⟩ := hc
      exact ⟨_, _, he⟩
    · rintro ⟨r, own, he⟩
      obtain ⟨-, rfl⟩ := ho.valid.remaining he
      exact ⟨_, he, by simp [Event.countsOff]⟩
  unfold State.ownPart
  by_cases hoff : .countedOff ∈ trail s.log w
  · rw [if_pos (hiff.mpr hoff), if_pos hoff]
  · rw [if_neg (fun hc => hoff (hiff.mp hc)), if_neg hoff]

theorem Orphaned.openChildren {a : Addr} (h : Orphaned s) : s.openChildren a = 0 := by
  unfold State.openChildren
  rw [List.countP_eq_zero]
  intro c _
  have hc : (s.jobs c).parent = none := h.1.parent c
  simp [hc]

/-- Without parents the accounting is right. -/
theorem Orphaned.countsRight (h : Orphaned s) : s.CountsRight := by
  obtain ⟨hroot, place, hv, ho, hr⟩ := id h
  have hval := ho.valid
  constructor
  case counter =>
    rintro w a ⟨hl, rfl, -⟩
    rw [h.ownPart, h.openChildren]
    by_cases hoff : .countedOff ∈ trail s.log (s.jobs a).work
    · rw [if_pos hoff]
      exact hval.counter_zero hl hoff
    · rw [if_neg hoff]
      exact hval.counter_one hl hoff
  case above_zero =>
    intro w r own hf
    rw [(hval.remaining hf).1]
    exact Nat.one_pos
  case recycled_le =>
    intro w
    have hmark : (fun e : Event => decide (e = .recycled w)) =
        fun e => decide (e.mark = some (w, .recycled)) := by
      funext e
      cases e <;> simp [Event.mark]
    rw [hmark, ← count_trail]
    exact hval.count_le w .recycled
  case recycled =>
    intro w hc
    have hcompl : .completed ∈ trail s.log w := completed_iff.mpr hc
    by_cases hrecycled : .recycled ∈ trail s.log w
    · exact Or.inl (recycled_iff.mp hrecycled)
    · -- the worker that completed the job still has it
      obtain ⟨a, i, m, v, ha, rfl⟩ := hr w (hval.mem_trail_of_le hcompl (by decide)) hrecycled
      have hlt : Stage.completed.rank < m.rank := (hval.mem_trail_iff ha).mp hcompl
      obtain rfl : m = .recycled := by
        cases m <;> first | rfl | exact absurd hlt (by decide)
      exact Or.inr ⟨i, a, Pc.mem_completing ((hv.run i a .recycled v).mpr ha).1, rfl⟩
  case finished =>
    intro w hc
    have hcompl : .completed ∈ trail s.log w := completed_iff.mpr hc
    refine ⟨finished_iff.mp (hval.mem_trail_of_le hcompl (by decide)), fun v a ti hcon => ?_⟩
    cases hroot.constructed hcon

/-- A new job in the storage `c` makes the counter of its parent too small. -/
theorem not_countsRight_of_child {w : Work} {a c : Addr} (h : Orphaned s)
    (hp : s.Pending w a) (hc : c ∈ s'.live) (hlive : ∀ b ∈ s.live, b ∈ s'.live)
    (hjob : s'.jobs a = s.jobs a) (hparent : (s'.jobs c).parent = some a)
    (hlog : ∀ e, e.mark ≠ none → (e ∈ s'.log ↔ e ∈ s.log))
    (hfresh : .completed (s'.jobs c).work ∉ s.log) : ¬ s'.CountsRight := by
  intro hr
  obtain ⟨hl, hw, hopen⟩ := id hp
  have hpend : s'.Pending w a :=
    ⟨hlive a hl, by rw [hjob, hw], fun he => hopen ((hlog _ (by simp [Event.mark])).mp he)⟩
  have hown : s'.ownPart w = s.ownPart w := by
    have hany : s'.log.any (Event.countsOff w) = s.log.any (Event.countsOff w) := by
      rw [Bool.eq_iff_iff, List.any_eq_true, List.any_eq_true]
      refine exists_congr fun e => and_congr_left fun hce => hlog e ?_
      cases e <;> simp [Event.countsOff, Event.mark] at hce ⊢
    rw [State.ownPart, State.ownPart, hany]
  -- the new job is counted now, and the counter is as it was
  have hchild : 0 < s'.openChildren a := by
    refine List.countP_pos_iff.mpr ⟨c, hc, ?_⟩
    rw [decide_eq_true_iff]
    exact ⟨hparent, fun he => hfresh ((hlog _ (by simp [Event.mark])).mp he)⟩
  have hbefore := h.countsRight.counter w a hp
  have hafter := hr.counter w a hpend
  rw [h.openChildren] at hbefore
  rw [hjob, hown] at hafter
  omega

theorem mem_log_cons {e e' : Event} {log : List Event} (he : e.mark ≠ none)
    (he' : e'.mark = none) : e ∈ e' :: log ↔ e ∈ log := by
  have hne : e ≠ e' := fun h => he (h ▸ he')
  rw [List.mem_cons]
  exact or_iff_right hne

/-- A job with a parent is scheduled. -/
theorem not_countsRight_schedule (h : Orphaned s) (hp : x.ParentPending s)
    (hx : ¬ x.Parentless) (hs : step s x = some s') : ¬ s'.CountsRight := by
  obtain ⟨-, place, hv, ho, -⟩ := id h
  cases x with
  | schedule t parent ti fresh =>
      cases parent with
      | none => exact absurd rfl hx
      | some p =>
          obtain ⟨w, a⟩ := p
          have hpend : s.Pending w a := hp
          obtain ⟨-, hfresh, -, rfl⟩ := step_schedule hs
          have hnew : .completed s.nextWork ∉ s.log := fun he => by
            have hcompl := completed_iff.mpr he
            rw [show trail s.log s.nextWork = [] from ho.valid.fresh le_rfl] at hcompl
            cases hcompl
          rcases construct_cases s t (some a) ti fresh with ⟨c, st, hpop, hcon⟩ | ⟨st, -, hcon⟩
          · -- the storage of a recycled job, so not the one of the parent
            have hbin : place c = some (.queue (.recyclingBin t)) := hv.popped hpop
            have hne : a ≠ c := fun hac => hpend.2.2 (by
              rw [← hpend.2.1, hac]
              exact completed_iff.mp ((ho.valid.mem_trail_iff hbin).mpr (by simp)))
            have hcl : c ∈ s.live := ho.valid.live hbin
            simp only [schedule, Option.map_some, hcon]
            exact not_countsRight_of_child h hpend hcl (fun b hb => hb)
              (Function.update_of_ne hne ..) (by simp [State.setCall])
              (fun e he => mem_log_cons he rfl) (by simpa [State.setCall] using hnew)
          · have hne : a ≠ fresh := fun hac => hfresh (hac ▸ hpend.1)
            simp only [schedule, Option.map_some, hcon]
            exact not_countsRight_of_child h hpend List.mem_cons_self
              (fun b hb => List.mem_cons_of_mem _ hb) (Function.update_of_ne hne ..)
              (by simp [State.setCall])
              (fun e he => (mem_log_cons he rfl).trans (mem_log_cons he rfl))
              (by simpa [State.setCall] using hnew)
  | _ => exact absurd trivial hx

/-- **When the accounting is right.** Take a run in which each job that is passed as a parent
is not completed at that time. The accounting is right in all its states iff no job is
scheduled with a parent: `construct` does not count the new job in the counter of its
parent. -/
theorem child_accounting_iff (h : Transition.Run step (init n) tr s)
    (hp : ∀ p ∈ tr, p.2.ParentPending p.1) :
    (∀ x ∈ Transition.visited tr s, x.CountsRight) ↔ ∀ p ∈ tr, p.2.Parentless :=
  h.visited_iff (D := fun s x => x.ParentPending s) (C := fun _ x => x.Parentless)
    (I := Orphaned) hp (orphaned_init n) (fun hI _ hC hs => hI.step hC hs)
    Orphaned.countsRight not_countsRight_schedule

/-- One worker runs a job without a parent and recycles it. -/
theorem child_accounting_iff_recycled : ∃ tr s, Transition.Run step (init 1) tr s ∧
    .recycled 1 ∈ s.log ∧ ∀ x ∈ Transition.visited tr s, x.CountsRight := by
  have hexec : ((Transition.exec step (fun s x => x.ParentPending s ∧ x.Parentless) (init 1)
      ([Action.schedule (.client 0) none none 7, .call (.client 0), .call (.client 0),
        .call (.client 0)] ++ List.replicate 10 (.work 0) ++ [Action.finish 0] ++
        List.replicate 6 (.work 0))).any fun s => decide (.recycled 1 ∈ s.log)) = true := by decide
  obtain ⟨tr, s, hrun, -, hx, hs⟩ := Transition.exists_run_of_exec hexec
  exact ⟨tr, s, hrun, of_decide_eq_true hs,
    (child_accounting_iff hrun (fun p hp => (hx p hp).1)).mpr (fun p hp => (hx p hp).2)⟩

/-- **Counterexample.** A client schedules a job and then another one with the first as its
parent, and the only worker runs both. The first job completes before its child has run. When
the child completes, the counter of the first job is decremented at zero, and the first job is
recycled for the second time. -/
theorem not_child_accounting : ∃ tr s, Transition.Run step (init 1) tr s ∧
    (∀ p ∈ tr, p.2.ParentPending p.1) ∧ .fetchSub 1 0 false ∈ s.log ∧
    s.log.countP (· = .recycled 1) = 2 ∧ ¬ s.CountsRight := by
  have hexec : ((Transition.exec step (fun s x => x.ParentPending s) (init 1)
      ([Action.schedule (.client 0) none none 7, .call (.client 0), .call (.client 0),
        .call (.client 0), .schedule (.client 0) (some (1, 7)) none 8, .call (.client 0),
        .call (.client 0), .call (.client 0)] ++ List.replicate 10 (.work 0) ++ [Action.finish 0] ++
        List.replicate 14 (.work 0) ++ [Action.finish 0] ++ List.replicate 8 (.work 0))).any fun s =>
      decide (.fetchSub 1 0 false ∈ s.log ∧ s.log.countP (· = .recycled 1) = 2)) = true := by
    decide
  obtain ⟨tr, s, hrun, -, hx, hs⟩ := Transition.exists_run_of_exec hexec
  obtain ⟨hzero, htwo⟩ := of_decide_eq_true hs
  exact ⟨tr, s, hrun, hx, hzero, htwo, fun hr =>
    absurd (hr.above_zero 1 0 false hzero) (lt_irrefl 0)⟩

end Claims

end Bop.JobSystem
