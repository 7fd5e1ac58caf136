import Bop.Basic.TaskPool
import Bop.JobSystem.Executions
import Bop.JobSystem.Refinement

set_option autoImplicit false

/-! # The job system as a pool of tasks

Seen from the outside, all that the queues, the bins, the stealing and the recycling of storage
serve is a pool of works (`Basic/TaskPool.lean`): user code hands in a work, a worker starts it,
and the work ends. `serves_pool` says that in runs without parents the job system shows nothing
but what such a pool may show, with continuations and before, during and after a shutdown.
-/

namespace Bop.JobSystem

open TaskPool (Status Label)

/-- What a step shows of the pool: the call of `schedule` or `then`, the start of a work and its
end. -/
def State.label (s : State) : Action → Option (Label Work Nat)
  | .schedule _ _ _ _ | .jobThen _ _ _ _ _ => some (.submit s.nextWork)
  | .work i =>
      match (s.worker i).pc with
      | .execute (some job) => some (.start (s.jobs job).work i)
      | _ => none
  | .finish i =>
      match (s.worker i).pc with
      | .running job => some (.finish (s.jobs job).work i)
      | _ => none
  | .call _ | .shutdown _ => none

variable {s s' : State} {x : Action} {i : Nat} {a : Addr}

/-- **What a step means for the works.** -/
inductive Shows (s : State) (x : Action) (s' : State) : Prop
  | quiet (hlabel : s.label x = none) (hn : s'.nextWork = s.nextWork)
      (hl : ∃ es, s'.log = es ++ s.log ∧ ∀ e ∈ es, e.executes = false)
      (hw : ∀ i a, (s'.worker i).pc = .running a ↔ (s.worker i).pc = .running a)
  | submits (hlabel : s.label x = some (.submit s.nextWork)) (hn : s'.nextWork = s.nextWork + 1)
      (hl : ∃ es, s'.log = es ++ s.log ∧ ∀ e ∈ es, e.executes = false)
      (hw : ∀ i a, (s'.worker i).pc = .running a ↔ (s.worker i).pc = .running a)
  | starts {i : Nat} {a : Addr} {v : Option Work}
      (hlabel : s.label x = some (.start (s.jobs a).work i)) (hn : s'.nextWork = s.nextWork)
      (hpc : (s.worker i).pc = .execute (some a))
      (hl : s'.log = .started (s.jobs a).work i v :: s.log) (hjobs : s'.jobs = s.jobs)
      (hw : ∀ j b, (s'.worker j).pc = .running b ↔
        (j = i ∧ b = a) ∨ (s.worker j).pc = .running b)
  | finishes {i : Nat} {a : Addr}
      (hlabel : s.label x = some (.finish (s.jobs a).work i)) (hn : s'.nextWork = s.nextWork)
      (hpc : (s.worker i).pc = .running a) (hl : s'.log = .finished (s.jobs a).work :: s.log)
      (hjobs : s'.jobs = s.jobs)
      (hw : ∀ j b, (s'.worker j).pc = .running b ↔ j ≠ i ∧ (s.worker j).pc = .running b)

theorem CallFrame.quiet (h : CallFrame s s') :
    (∃ es, s'.log = es ++ s.log ∧ ∀ e ∈ es, e.executes = false) ∧
      ∀ i a, (s'.worker i).pc = .running a ↔ (s.worker i).pc = .running a := by
  obtain ⟨es, hes, hcall⟩ := h.log
  refine ⟨⟨es, hes, fun e he => ?_⟩, fun i a => by rw [h.worker]⟩
  have hof := hcall e he
  cases e <;> first | rfl | cases hof

theorem construct_nextWork (t : Tid) (parent : Option Addr) (threadIndex : Option Nat)
    (fresh : Addr) :
    (construct s t parent threadIndex fresh).1.nextWork = s.nextWork + 1 := by
  rcases construct_cases s t parent threadIndex fresh with ⟨b, st, -, hc⟩ | ⟨st, -, hc⟩
  · rw [hc]
  · rw [hc]

theorem Pc.phase_ne {pc : Pc} (h : pc.phase = .between) (a : Addr) : pc ≠ .running a := by
  intro hpc
  rw [hpc] at h
  cases h

theorem workerStep_shows (hw : workerStep s i = some s') : Shows s (.work i) s' := by
  have hframe := workerStep_frame hw
  have hother : ∀ j b, j ≠ i →
      ((s'.worker j).pc = .running b ↔ (s.worker j).pc = .running b) :=
    fun j b hj => by rw [hframe.worker j hj]
  cases workerStep_executes hw with
  | @executes a v hpc hpc' hl htr hjobs =>
      refine .starts (by simp only [State.label, hpc]) hframe.nextWork hpc hl hjobs fun j b => ?_
      by_cases hj : j = i
      · subst hj
        simp [hpc, hpc', eq_comm]
      · rw [hother j b hj]
        simp [hj]
  | stores hpc hpc' hl htr =>
      refine .quiet (by simp only [State.label, hpc]) hframe.nextWork ⟨[], hl, by simp⟩ fun j b => ?_
      by_cases hj : j = i
      · subst hj
        simp [hpc, Pc.phase_ne hpc' b]
      · exact hother j b hj
  | other hpc hpc' hne hl htr =>
      refine .quiet ?_ hframe.nextWork hl fun j b => ?_
      · unfold State.label
        cases h : (s.worker i).pc with
        | execute o =>
            cases o with
            | none => simp only [h]
            | some a => exact absurd h (hne a)
        | _ => simp only [h]
      · by_cases hj : j = i
        · subst hj
          simp [Pc.phase_ne hpc b, Pc.phase_ne hpc' b]
        · exact hother j b hj

theorem step_shows (hs : step s x = some s') : Shows s x s' := by
  cases x with
  | schedule t parent ti fresh =>
      obtain ⟨-, -, -, rfl⟩ := step_schedule hs
      obtain ⟨hl, hw⟩ := ((construct_frame (s := s) (t := t) (parent.map Prod.snd) ti
        fresh).setCall (t := t) (c := .route _)).quiet
      exact .submits rfl (construct_nextWork t (parent.map Prod.snd) ti fresh) hl hw
  | jobThen t of job ti fresh =>
      obtain ⟨-, -, -, rfl⟩ := step_jobThen hs
      obtain ⟨hl, hw⟩ := ((construct_frame (s := s) (t := t) none ti fresh).setCall (t := t)
        (c := .attach job of _)).quiet
      exact .submits rfl (construct_nextWork t none ti fresh) hl hw
  | call t =>
      obtain ⟨hl, hw⟩ := (callStep_frame hs).quiet
      exact .quiet rfl (step_nextWork (by simp) (by simp) hs) hl hw
  | shutdown t =>
      obtain ⟨-, rfl⟩ := step_shutdown hs
      exact .quiet rfl rfl ⟨[], rfl, by simp⟩ fun _ _ => Iff.rfl
  | finish i =>
      obtain ⟨a, hpc, -, -, rfl⟩ := step_finish hs
      refine .finishes (i := i) (a := a) (by simp only [State.label, hpc]) rfl hpc rfl rfl
        fun j b => ?_
      show (Function.update s.worker i _ j).pc = _ ↔ _
      by_cases hj : j = i
      · subst hj
        simp
      · simp [hj]
  | work i => exact workerStep_shows (step_work hs).2

/-! ## The pool of a state -/

/-- The status of the works in a state of the job system. -/
structure Serves (s : State) (p : Work → Status Nat) : Prop where
  unknown : ∀ w, p w = .unknown ↔ w = 0 ∨ s.nextWork ≤ w
  waiting : ∀ w, p w = .waiting ↔ 0 < w ∧ w < s.nextWork ∧ ∀ i v, .started w i v ∉ s.log
  running : ∀ w i, p w = .running i ↔ ∃ a, (s.worker i).pc = .running a ∧ (s.jobs a).work = w
  executed : ∀ w, (∃ i, p w = .executed i) ↔ .finished w ∈ s.log

theorem serves_init (n : Nat) : Serves (init n) fun _ => .unknown := by
  refine ⟨fun w => ?_, fun w => ?_, fun w i => ?_, fun w => ?_⟩
  · exact iff_of_true rfl (Nat.eq_zero_or_pos w)
  · simp only [reduceCtorEq, false_iff]
    exact fun h => absurd h.2.1 (Nat.not_lt.mpr h.1)
  · simp [init]
  · simp [init]

/-- The work of a job that a worker runs stays the same: no job is made in its storage. -/
theorem Accounted.running_work (h : Accounted s) (hx : s.NoneToTell x)
    (hs : JobSystem.step s x = some s')
    (hpc : (s.worker i).pc = .running a) : (s'.jobs a).work = (s.jobs a).work := by
  obtain ⟨place, hv, ho⟩ := h
  have ha : place a = some (.run i .finished (s.worker i).via) :=
    (hv.run i a .finished _).mp ⟨by rw [hpc]; rfl, rfl⟩
  have hjobs : ∀ {L : Ledger} {place'}, s'.ledger place' = L → s'.jobs = L.jobs :=
    fun h => congrArg Ledger.jobs h
  cases step_simulated hv ho hx (Policy.any_admits s x) hs with
  | stutter hv' hl => rw [hjobs hl]; rfl
  | free hv' _ _ _ hl => rw [hjobs hl]; rfl
  | clear hv' _ _ _ hl => rw [hjobs hl]; rfl
  | @move place' hv' hm =>
      rcases hm.keeps with hkeep | ⟨b, t, c, o, L₁, hb, -, hl⟩
      · exact hkeep.work a
      · have hab : a ≠ b := by
          rintro rfl
          rcases hb with ⟨⟨u, hu⟩, -⟩ | ⟨hu, -⟩
          · have hu' : place a = some (.queue (.recyclingBin u)) := hu
            rw [ha] at hu'
            cases hu'
          · exact hu (ho.valid.live ha)
        have hbase : L₁.jobs = s.jobs := by rcases hb with ⟨-, rfl⟩ | ⟨-, rfl⟩ <;> rfl
        rw [hjobs hl]
        simp [Ledger.construct, hab, hbase]

/-- What a worker runs was submitted and started. -/
theorem Accounted.running (h : Accounted s) (hpc : (s.worker i).pc = .running a) :
    (s.jobs a).work < s.nextWork ∧ 0 < (s.jobs a).work ∧ .finished (s.jobs a).work ∉ s.log ∧
      ∃ j v, .started (s.jobs a).work j v ∈ s.log := by
  obtain ⟨place, hv, ho⟩ := h
  have ha : place a = some (.run i .finished (s.worker i).via) :=
    (hv.run i a .finished _).mp ⟨by rw [hpc]; rfl, rfl⟩
  have hl := ho.valid.live ha
  refine ⟨ho.valid.work_lt hl, ho.valid.work_pos hl, fun hfin => ?_, ?_⟩
  · have hended := (ho.valid.mem_trail_iff ha).mp (finished_iff.mpr hfin)
    exact absurd hended (lt_irrefl _)
  · exact started_iff.mp ((ho.valid.mem_trail_iff ha).mpr Nat.zero_lt_one)

/-- What a worker is about to run was submitted and not started. -/
theorem Accounted.starting (h : Accounted s) (hpc : (s.worker i).pc = .execute (some a)) :
    (s.jobs a).work < s.nextWork ∧ 0 < (s.jobs a).work ∧
      ∀ j v, .started (s.jobs a).work j v ∉ s.log := by
  obtain ⟨place, hv, ho⟩ := h
  have ha : place a = some (.run i .started (s.worker i).via) :=
    (hv.run i a .started _).mp ⟨by rw [hpc]; rfl, rfl⟩
  have hl := ho.valid.live ha
  refine ⟨ho.valid.work_lt hl, ho.valid.work_pos hl, fun j v hst => ?_⟩
  have hbegan := (ho.valid.mem_trail_iff ha).mp (started_iff.mpr ⟨j, v, hst⟩)
  exact absurd hbegan (lt_irrefl _)

/-- The next work was not heard of. -/
theorem Accounted.fresh (h : Accounted s) : 0 < s.nextWork ∧
    (∀ i v, .started s.nextWork i v ∉ s.log) ∧ .finished s.nextWork ∉ s.log := by
  obtain ⟨place, hv, ho⟩ := h
  have hnone : trail s.log s.nextWork = [] := ho.valid.fresh le_rfl
  refine ⟨ho.valid.nextWork_pos, fun i v hst => ?_, fun hfin => ?_⟩
  · have hbegan := started_iff.mpr ⟨i, v, hst⟩
    rw [hnone] at hbegan
    cases hbegan
  · have hended := finished_iff.mpr hfin
    rw [hnone] at hended
    cases hended

variable {p : Work → Status Nat}

/-- A step that starts no work and ends none keeps what was said of the works. -/
theorem mem_log_quiet {e : Event} (hl : ∃ es, s'.log = es ++ s.log ∧ ∀ e ∈ es, e.executes = false)
    (he : e.executes = true) : e ∈ s'.log ↔ e ∈ s.log := by
  obtain ⟨es, hes, hq⟩ := hl
  rw [hes, List.mem_append]
  refine or_iff_right fun hmem => ?_
  rw [hq e hmem] at he
  cases he

theorem Serves.submit (h : Serves s p) (hacc : Accounted s)
    (hn : s'.nextWork = s.nextWork + 1)
    (hl : ∃ es, s'.log = es ++ s.log ∧ ∀ e ∈ es, e.executes = false)
    (hrun : ∀ w i, (∃ a, (s'.worker i).pc = .running a ∧ (s'.jobs a).work = w) ↔
      ∃ a, (s.worker i).pc = .running a ∧ (s.jobs a).work = w) :
    Serves s' (Function.update p s.nextWork .waiting) := by
  obtain ⟨hpos, hst, hfin⟩ := hacc.fresh
  have hstarted : ∀ {w i v}, .started w i v ∈ s'.log ↔ .started w i v ∈ s.log :=
    mem_log_quiet hl rfl
  have hfinished : ∀ {w}, .finished w ∈ s'.log ↔ .finished w ∈ s.log := mem_log_quiet hl rfl
  refine ⟨fun w => ?_, fun w => ?_, fun w i => ?_, fun w => ?_⟩
  · rw [hn]
    by_cases hw : w = s.nextWork
    · subst hw
      simp [hpos.ne']
    · rw [Function.update_of_ne hw, h.unknown]
      exact or_congr_right ⟨fun hle => lt_of_le_of_ne hle (Ne.symm hw), fun hle => Nat.le_of_lt hle⟩
  · rw [hn]
    simp only [hstarted]
    by_cases hw : w = s.nextWork
    · subst hw
      simp [hpos, hst]
    · rw [Function.update_of_ne hw, h.waiting]
      refine and_congr_right fun _ => and_congr_left fun _ => ?_
      exact ⟨fun hlt => Nat.lt_succ_of_lt hlt, fun hle => lt_of_le_of_ne (Nat.le_of_lt_succ hle) hw⟩
  · rw [hrun]
    by_cases hw : w = s.nextWork
    · subst hw
      simp only [Function.update_self, reduceCtorEq, false_iff]
      rintro ⟨a, hpc, hwork⟩
      exact absurd (hacc.running hpc).1 (by rw [hwork]; exact lt_irrefl _)
    · rw [Function.update_of_ne hw, h.running]
  · rw [hfinished]
    by_cases hw : w = s.nextWork
    · subst hw
      simp [hfin]
    · rw [Function.update_of_ne hw, h.executed]

theorem Serves.start {v : Option Work} (h : Serves s p) (hacc : Accounted s)
    (hn : s'.nextWork = s.nextWork) (hpc : (s.worker i).pc = .execute (some a))
    (hl : s'.log = .started (s.jobs a).work i v :: s.log) (hjobs : s'.jobs = s.jobs)
    (hw : ∀ j b, (s'.worker j).pc = .running b ↔ (j = i ∧ b = a) ∨ (s.worker j).pc = .running b) :
    p (s.jobs a).work = .waiting ∧
      Serves s' (Function.update p (s.jobs a).work (.running i)) := by
  obtain ⟨hlt, hpos, hst⟩ := hacc.starting hpc
  have hwait : p (s.jobs a).work = .waiting := (h.waiting _).mpr ⟨hpos, hlt, hst⟩
  have hfin : .finished (s.jobs a).work ∉ s.log := by
    intro hfin
    obtain ⟨j, hj⟩ := (h.executed _).mpr hfin
    rw [hwait] at hj
    cases hj
  have hnotrun : ∀ j b, (s.worker j).pc = .running b → (s.jobs b).work ≠ (s.jobs a).work := by
    intro j b hb hwork
    have hrun := (h.running _ j).mpr ⟨b, hb, hwork⟩
    rw [hwait] at hrun
    cases hrun
  refine ⟨hwait, fun w => ?_, fun w => ?_, fun w j => ?_, fun w => ?_⟩
  · rw [hn]
    by_cases hwa : w = (s.jobs a).work
    · subst hwa
      simp [hpos.ne', hlt]
    · rw [Function.update_of_ne hwa, h.unknown]
  · rw [hn, hl]
    by_cases hwa : w = (s.jobs a).work
    · subst hwa
      simp only [Function.update_self, reduceCtorEq, false_iff]
      exact fun hall => hall.2.2 i v List.mem_cons_self
    · rw [Function.update_of_ne hwa, h.waiting]
      simp [hwa]
  · rw [hjobs]
    by_cases hwa : w = (s.jobs a).work
    · subst hwa
      rw [Function.update_self, Status.running.injEq]
      constructor
      · rintro rfl
        exact ⟨a, (hw i a).mpr (Or.inl ⟨rfl, rfl⟩), rfl⟩
      · rintro ⟨b, hb, hwork⟩
        rcases (hw j b).mp hb with ⟨rfl, -⟩ | hb
        · rfl
        · exact absurd hwork (hnotrun j b hb)
    · rw [Function.update_of_ne hwa, h.running]
      refine exists_congr fun b => ?_
      rw [hw]
      constructor
      · rintro ⟨hb, hwork⟩
        exact ⟨Or.inr hb, hwork⟩
      · rintro ⟨⟨-, rfl⟩ | hb, hwork⟩
        · exact absurd hwork.symm hwa
        · exact ⟨hb, hwork⟩
  · rw [hl]
    by_cases hwa : w = (s.jobs a).work
    · subst hwa
      simp [hfin]
    · rw [Function.update_of_ne hwa, h.executed]
      simp

theorem Serves.finish (h : Serves s p) (hacc : Accounted s) (hn : s'.nextWork = s.nextWork)
    (hpc : (s.worker i).pc = .running a) (hl : s'.log = .finished (s.jobs a).work :: s.log)
    (hjobs : s'.jobs = s.jobs)
    (hw : ∀ j b, (s'.worker j).pc = .running b ↔ j ≠ i ∧ (s.worker j).pc = .running b) :
    p (s.jobs a).work = .running i ∧
      Serves s' (Function.update p (s.jobs a).work (.executed i)) := by
  obtain ⟨hlt, hpos, -, k, v, hst⟩ := hacc.running hpc
  have hrun : p (s.jobs a).work = .running i := (h.running _ i).mpr ⟨a, hpc, rfl⟩
  refine ⟨hrun, fun w => ?_, fun w => ?_, fun w j => ?_, fun w => ?_⟩
  · rw [hn]
    by_cases hwa : w = (s.jobs a).work
    · subst hwa
      simp [hpos.ne', hlt]
    · rw [Function.update_of_ne hwa, h.unknown]
  · rw [hn, hl]
    by_cases hwa : w = (s.jobs a).work
    · subst hwa
      simp only [Function.update_self, reduceCtorEq, false_iff]
      exact fun hall => hall.2.2 k v (List.mem_cons_of_mem _ hst)
    · rw [Function.update_of_ne hwa, h.waiting]
      simp
  · rw [hjobs]
    by_cases hwa : w = (s.jobs a).work
    · subst hwa
      simp only [Function.update_self, reduceCtorEq, false_iff]
      rintro ⟨b, hb, hwork⟩
      obtain ⟨hj, hb⟩ := (hw j b).mp hb
      -- the work would run at two workers
      have hrun' := (h.running _ j).mpr ⟨b, hb, hwork⟩
      rw [hrun] at hrun'
      exact hj (Status.running.inj hrun').symm
    · rw [Function.update_of_ne hwa, h.running]
      refine exists_congr fun b => ?_
      rw [hw]
      constructor
      · rintro ⟨hb, hwork⟩
        refine ⟨⟨?_, hb⟩, hwork⟩
        rintro rfl
        rw [hpc] at hb
        cases hb
        exact hwa hwork.symm
      · rintro ⟨⟨-, hb⟩, hwork⟩
        exact ⟨hb, hwork⟩
  · rw [hl]
    by_cases hwa : w = (s.jobs a).work
    · subst hwa
      simp
    · rw [Function.update_of_ne hwa, h.executed]
      simp [hwa]

/-- **A step of the job system is a step of the pool**, or it does not show. -/
theorem Serves.step (h : Serves s p) (hacc : Accounted s) (hx : s.NoneToTell x)
    (hs : JobSystem.step s x = some s') : (s.label x = none ∧ Serves s' p) ∨
      ∃ l p', s.label x = some l ∧ TaskPool.step p l = some p' ∧ Serves s' p' := by
  have hkeep : (∀ i a, (s'.worker i).pc = .running a ↔ (s.worker i).pc = .running a) →
      ∀ w i, (∃ a, (s'.worker i).pc = .running a ∧ (s'.jobs a).work = w) ↔
        ∃ a, (s.worker i).pc = .running a ∧ (s.jobs a).work = w := by
    intro hw w i
    refine exists_congr fun a => ?_
    rw [hw]
    exact and_congr_right fun hpc => by rw [hacc.running_work hx hs hpc]
  cases step_shows hs with
  | quiet hlabel hn hl hw =>
      refine Or.inl ⟨hlabel, fun w => ?_, fun w => ?_, fun w i => ?_, fun w => ?_⟩
      · rw [hn, h.unknown]
      · rw [hn, h.waiting]
        simp only [mem_log_quiet hl (e := .started w _ _) rfl]
      · rw [hkeep hw, h.running]
      · rw [mem_log_quiet hl rfl, h.executed]
  | submits hlabel hn hl hw =>
      have hnew : p s.nextWork = .unknown := (h.unknown _).mpr (Or.inr le_rfl)
      exact Or.inr ⟨_, _, hlabel, if_pos hnew, h.submit hacc hn hl (hkeep hw)⟩
  | @starts i a v hlabel hn hpc hl hjobs hw =>
      obtain ⟨hwait, hserves⟩ := h.start hacc hn hpc hl hjobs hw
      have hfree : ∀ v, p v ≠ .running i := by
        intro v hv
        obtain ⟨b, hb, -⟩ := (h.running v i).mp hv
        rw [hpc] at hb
        cases hb
      exact Or.inr ⟨_, _, hlabel, if_pos ⟨hwait, hfree⟩, hserves⟩
  | @finishes i a hlabel hn hpc hl hjobs hw =>
      obtain ⟨hrun, hserves⟩ := h.finish hacc hn hpc hl hjobs hw
      exact Or.inr ⟨_, _, hlabel, if_pos hrun, hserves⟩

variable {n : Nat} {tr : List (State × Action)}

/-- What is seen of a run: the works handed in, started and ended, newest first. -/
def seen (tr : List (State × Action)) : List (Label Work Nat) :=
  tr.filterMap fun q => q.1.label q.2

/-- **The job system is a pool of works.** What is seen of a run in which no job is scheduled with
a parent, is what is seen of a run of the pool, which ends with each work in the status that the
job system has it in. So each work is handed in, started and ended, once each and in this order,
and by one worker, and no worker has two works at a time. -/
theorem serves_pool (h : Transition.Run step (init n) tr s) (hx : ∀ q ∈ tr, q.2.Parentless) :
    ∃ tr' p, Transition.Run TaskPool.step (fun _ => .unknown) tr' p ∧
      tr'.map Prod.snd = seen tr ∧ Serves s p ∧
      (∀ w, (seen tr).filter (fun l => l.task = w) = (p w).life w) ∧
      ∀ v w i, p v = .running i → p w = .running i → v = w := by
  obtain ⟨tr', p, hrun, ⟨-, hserves⟩, hseen⟩ : ∃ tr' p,
      Transition.Run TaskPool.step (fun _ => .unknown) tr' p ∧
        ((Accounted s ∧ s.Rootless) ∧ Serves s p) ∧ tr'.map Prod.snd = seen tr := by
    refine h.simulated_labels (R := fun s p => (Accounted s ∧ s.Rootless) ∧ Serves s p)
      (C := fun _ x => x.Parentless) ⟨⟨accounted_init n, rootless_init n⟩, serves_init n⟩ ?_ hx
    rintro s p x s' ⟨⟨hacc, hroot⟩, hserves⟩ hx hs
    have hnone := hroot.noneToTell x
    have hnext : Accounted s' ∧ s'.Rootless := ⟨hacc.step hnone hs, hacc.step_rootless hroot hx hs⟩
    rcases hserves.step hacc hnone hs with ⟨hl, hs'⟩ | ⟨l, p', hl, hp, hs'⟩
    · exact Or.inl ⟨hl, hnext, hs'⟩
    · exact Or.inr ⟨l, p', hl, hp, hnext, hs'⟩
  refine ⟨tr', p, hrun, hseen, hserves, fun w => ?_, fun v w i => TaskPool.run_exclusive hrun⟩
  have hlife := TaskPool.run_life hrun w
  rwa [hseen] at hlife

/-- A client hands in a work and a continuation of it, and the worker runs both. -/
theorem serves_pool_two : ∃ tr s, Transition.Run step (init 1) tr s ∧
    (∃ i, (seen tr).filter (fun l => l.task = 2) = [.finish 2 i, .start 2 i, .submit 2]) ∧
    ∃ p, Serves s p := by
  have hexec : ((Transition.exec step (fun _ x => x.Parentless) (init 1)
      ([Action.schedule (.client 0) none none 7, .call (.client 0), .call (.client 0),
        .call (.client 0), .jobThen (.client 0) 1 7 none 8, .call (.client 0),
        .call (.client 0)] ++ List.replicate 10 (.work 0) ++ [Action.finish 0] ++
        List.replicate 7 (.work 0) ++ [Action.finish 0])).any fun s =>
      decide (.finished 2 ∈ s.log)) = true := by decide
  obtain ⟨tr, s, hrun, -, hx, hs⟩ := Transition.exists_run_of_exec hexec
  obtain ⟨tr', p, -, -, hserves, hlife, -⟩ := serves_pool hrun hx
  obtain ⟨i, hi⟩ := (hserves.executed 2).mpr (of_decide_eq_true hs)
  refine ⟨tr, s, hrun, ⟨i, ?_⟩, p, hserves⟩
  rw [hlife 2, hi]
  rfl

end Bop.JobSystem
