import Bop.Basic.Countdown
import Bop.Basic.Transition
import Bop.JobSystem.Frame
import Bop.JobSystem.Ledger

set_option autoImplicit false

/-! # Concurrent calls of job_completed

`JobSystem::job_completed` calls itself for the parent of a job that reached zero, and several
threads may meet at one ancestor. This file takes the calls that are due for a forest of jobs
and runs them by any number of threads, in any order, one statement at a time: the `fetch_sub`,
the test of `remaining`, the call for `m_Parent`, `recycle` and the return. `Step.lean` has the
`fetch_sub` with its test, and `recycle` with its return, as one step; `completionStep_run` says
that these are steps of the system here, taken in a row.

The log of the calls is a proper one of `Basic/Countdown.lean` (`Sound`), so its theorems
about counters, releases and results hold of the code, and a released job is in a bin (`Placed`).
Both are kept by every statement; `CascadeRuns.lean` has the runs.
-/

namespace Bop.JobSystem.Cascade

open Countdown

/-! ## The calls -/

/-- Where a thread is in `job_completed(job)`. -/
inductive Point
  | fetchSub                    -- uint32_t remaining = job->m_NumChildren.fetch_sub(1);
  | test (remaining : Nat)      -- if (remaining <= 1)
  | ascend                      -- if (job->m_Parent) job_completed(job->m_Parent);
  | recycle                     -- recycle(job);
  | ret (result : Bool)         -- return
  deriving DecidableEq

/-- The calls of `job_completed` that a thread is in: the innermost one, and the jobs whose calls
wait for the one of their parent, innermost first. -/
structure Activation where
  point : Point
  job : Addr
  callers : List Addr
  deriving DecidableEq

structure Calls where
  base : State
  /-- the jobs that were run and for which `job_completed` was not called yet -/
  due : List Addr
  active : Tid → Option Activation
  /-- newest first -/
  log : List (Countdown.Event Addr Tid)

def Calls.goto (x : Calls) (t : Tid) (o : Option Activation) : Calls :=
  { x with active := Function.update x.active t o }

def Calls.record (x : Calls) (e : Countdown.Event Addr Tid) : Calls :=
  { x with log := e :: x.log }

/-- What is left to do when the call for a job returned to the one for a child, which ignores
the result. -/
def returnTo : List Addr → Option Activation
  | [] => none
  | child :: callers => some ⟨.recycle, child, callers⟩

/-- The next statement of `JobSystem::job_completed`. -/
def jobCompleted (x : Calls) (t : Tid) : Activation → Calls
  | ⟨.fetchSub, job, callers⟩ =>
      let j := x.base.jobs job
      let remaining := j.numChildren
      { (x.goto t (some ⟨.test remaining, job, callers⟩)).record
          (.fetchSub t job callers.head? remaining) with
        base := x.base.setJob job { j with numChildren := pred32 remaining } }
  | ⟨.test remaining, job, callers⟩ =>
      x.goto t (some ⟨if remaining ≤ 1 then .ascend else .ret false, job, callers⟩)
  | ⟨.ascend, job, callers⟩ =>
      match (x.base.jobs job).parent with
      | some parent => x.goto t (some ⟨.fetchSub, parent, job :: callers⟩)
      | none => x.goto t (some ⟨.recycle, job, callers⟩)
  | ⟨.recycle, job, callers⟩ =>
      { (x.goto t (some ⟨.ret true, job, callers⟩)).record
          (.released t job callers.head?) with
        base := JobSystem.recycle x.base t job }
  | ⟨.ret result, job, callers⟩ =>
      (x.goto t (returnTo callers)).record (.returned t job callers.head? result)

inductive Action
  /-- a worker pops the queue `q` and runs the job -/
  | run (q : QueueId)
  /-- the thread `t` calls `job_completed(job)` for a job that was run -/
  | call (t : Tid) (job : Addr)
  /-- the next statement of the call that the thread `t` is in -/
  | next (t : Tid)
  deriving DecidableEq

def step (x : Calls) : Action → Option Calls
  | .run q =>
      if q.isBin then none
      else match JobQueue.pop x.base.store q with
        | (some job, store) =>
            some { x with base := { x.base with store := store }, due := job :: x.due }
        | (none, _) => none
  | .call t job =>
      if x.active t = none ∧ job ∈ x.due then
        some { (x.goto t (some ⟨.fetchSub, job, []⟩)).record (.called t job) with
          due := x.due.erase job }
      else none
  | .next t => (x.active t).map (jobCompleted x t)

/-! ## The steps of completionStep -/

def activation : Completion → Activation
  | .fetchSub job callers => ⟨.fetchSub, job, callers⟩
  | .ascend job callers => ⟨.ascend, job, callers⟩
  | .recycle job callers => ⟨.recycle, job, callers⟩

section Steps

variable {x x' : Calls} {t : Tid} {act : Activation}

@[simp] theorem goto_active_self (o : Option Activation) : (x.goto t o).active t = o :=
  Function.update_self ..

@[simp] theorem goto_base (o : Option Activation) : (x.goto t o).base = x.base := rfl

@[simp] theorem record_base (e : Countdown.Event Addr Tid) : (x.record e).base = x.base := rfl

@[simp] theorem record_active (e : Countdown.Event Addr Tid) : (x.record e).active = x.active := rfl

theorem step_next (hx : x.active t = some act) :
    step x (.next t) = some (jobCompleted x t act) := by
  simp [step, hx]

theorem returnTo_eq (callers : List Addr) : returnTo callers = (unwind callers).map activation := by
  cases callers with
  | nil => rfl
  | cons c callers => rfl

/-- The thread is at `c'`, and the jobs and the queues are those of `s`. -/
def Agrees (x : Calls) (t : Tid) (s : State) (c' : Option Completion) : Prop :=
  x.active t = c'.map activation ∧ x.base.jobs = s.jobs ∧ x.base.store = s.store

/-- **The coarser steps.** A step of `completionStep` is some statements of the call, executed
in a row. -/
theorem completionStep_run (c : Completion) (hx : x.active t = some (activation c)) :
    ∃ tr x', Transition.Run step x tr x' ∧ (∀ p ∈ tr, p.2 = .next t) ∧
      Agrees x' t (completionStep x.base t c).1 (completionStep x.base t c).2 := by
  cases c with
  | fetchSub job callers =>
      let remaining := (x.base.jobs job).numChildren
      let x₁ := jobCompleted x t ⟨.fetchSub, job, callers⟩
      have h₁ : x₁.active t = some ⟨.test remaining, job, callers⟩ := goto_active_self _
      let x₂ := jobCompleted x₁ t ⟨.test remaining, job, callers⟩
      have h₂ : x₂.active t =
          some ⟨if remaining ≤ 1 then .ascend else .ret false, job, callers⟩ :=
        goto_active_self _
      have hrun : Transition.Run step x [(x₁, .next t), (x, .next t)] x₂ :=
        (Transition.Run.nil.snoc (step_next hx)).snoc (step_next h₁)
      have hjobs : x₂.base.jobs = (completionStep x.base t (.fetchSub job callers)).1.jobs := by
        cases callers with
        | nil => rfl
        | cons child callers => rfl
      have hstore : x₂.base.store = (completionStep x.base t (.fetchSub job callers)).1.store := by
        cases callers with
        | nil => rfl
        | cons child callers => rfl
      by_cases hle : remaining ≤ 1
      · refine ⟨_, x₂, hrun, by simp, ?_, hjobs, hstore⟩
        rw [h₂, if_pos hle]
        show _ = Option.map activation (if remaining ≤ 1 then _ else _)
        rw [if_pos hle]
        rfl
      · -- the call returns, to one that ignores the result
        rw [if_neg hle] at h₂
        refine ⟨_, jobCompleted x₂ t ⟨.ret false, job, callers⟩, hrun.snoc (step_next h₂),
          by simp, ?_, hjobs, hstore⟩
        have hret : (jobCompleted x₂ t ⟨.ret false, job, callers⟩).active t = returnTo callers :=
          goto_active_self _
        rw [hret, returnTo_eq]
        show _ = Option.map activation (if remaining ≤ 1 then _ else _)
        rw [if_neg hle]
  | ascend job callers =>
      refine ⟨_, _, Transition.Run.nil.snoc (step_next hx), by simp, ?_⟩
      cases hp : (x.base.jobs job).parent with
      | none => simp [Agrees, activation, jobCompleted, completionStep, hp, State.record]
      | some p => simp [Agrees, activation, jobCompleted, completionStep, hp]
  | recycle job callers =>
      let x₁ := jobCompleted x t ⟨.recycle, job, callers⟩
      have h₁ : x₁.active t = some ⟨.ret true, job, callers⟩ := goto_active_self _
      refine ⟨_, _, (Transition.Run.nil.snoc (step_next hx)).snoc (step_next h₁), by simp, ?_⟩
      have hret : (jobCompleted x₁ t ⟨.ret true, job, callers⟩).active t = returnTo callers :=
        goto_active_self _
      exact ⟨hret.trans (returnTo_eq callers), rfl, rfl⟩

end Steps

/-! ## The threads and the log -/

section Threads

variable {parent : Addr → Option Addr} {A : Finset Addr} {log : List (Countdown.Event Addr Tid)}
  {e : Countdown.Event Addr Tid} {t : Tid} {job : Addr} {caller : Option Addr}
  {callers : List Addr} {act : Activation}

/-- The call for `job` was made by those for the `callers`, all of which the thread `t` took to
zero and did not release yet. The outermost one did not return. -/
def Waits (parent : Addr → Option Addr) (log : List (Countdown.Event Addr Tid)) (t : Tid) :
    Addr → List Addr → Prop
  | job, [] => .called t job ∈ log ∧ ∀ t' r, .returned t' job none r ∉ log
  | job, child :: callers =>
      parent child = some job ∧ .fetchSub t child callers.head? 1 ∈ log ∧
        ¬ Released log child ∧ Waits parent log t child callers

/-- A job at zero that the call did not go on from. -/
def Fresh (parent : Addr → Option Addr) (log : List (Countdown.Event Addr Tid)) (job : Addr) :
    Prop :=
  ¬ Released log job ∧ ∀ p, parent job = some p → ¬ Counted log p (some job)

/-- What the call for `job` from `caller` did before the point. -/
def Point.Ok (parent : Addr → Option Addr) (log : List (Countdown.Event Addr Tid)) (t : Tid)
    (job : Addr) (caller : Option Addr) : Point → Prop
  | .fetchSub => ¬ Counted log job caller
  | .test remaining =>
      .fetchSub t job caller remaining ∈ log ∧ (remaining ≤ 1 → Fresh parent log job)
  | .ascend => .fetchSub t job caller 1 ∈ log ∧ Fresh parent log job
  | .recycle => .fetchSub t job caller 1 ∈ log ∧ ¬ Released log job ∧
      ∀ p, parent job = some p → Counted log p (some job)
  | .ret true => .released t job caller ∈ log
  | .ret false => ∃ r, 1 < r ∧ .fetchSub t job caller r ∈ log

def Activation.Ok (parent : Addr → Option Addr) (log : List (Countdown.Event Addr Tid)) (t : Tid)
    (act : Activation) : Prop :=
  Waits parent log t act.job act.callers ∧ act.point.Ok parent log t act.job act.callers.head?

theorem Waits.entered (h : Waits parent log t job callers) :
    Entered parent log t job callers.head? := by
  cases callers with
  | nil => exact h.1
  | cons child callers => exact ⟨h.1, _, h.2.1⟩

theorem Waits.last (h : Waits parent log t job callers) :
    ∀ c ∈ callers, ∃ d, .fetchSub t c d 1 ∈ log := by
  induction callers generalizing job with
  | nil => exact fun c hc => absurd hc List.not_mem_nil
  | cons child callers ih =>
      intro c hc
      rcases List.mem_cons.mp hc with rfl | hc
      · exact ⟨_, h.2.1⟩
      · exact ih h.2.2.2 c hc

/-- The callers are below the job in the forest. -/
theorem Waits.below (h : Waits parent log t job callers) :
    ∀ c ∈ callers, Relation.TransGen (Up parent) c job := by
  induction callers generalizing job with
  | nil => exact fun c hc => absurd hc List.not_mem_nil
  | cons child callers ih =>
      intro c hc
      rcases List.mem_cons.mp hc with rfl | hc
      · exact Relation.TransGen.single h.1
      · exact (ih h.2.2.2 c hc).tail h.1

/-- Events that release no caller and return from no outermost call. -/
theorem Waits.cons (h : Waits parent log t job callers)
    (hrel : ∀ c ∈ callers, Released (e :: log) c → Released log c)
    (hret : ∀ t' b r, .called t b ∈ log → e ≠ .returned t' b none r) :
    Waits parent (e :: log) t job callers := by
  induction callers generalizing job with
  | nil =>
      refine ⟨List.mem_cons_of_mem _ h.1, fun t' r hr => ?_⟩
      rcases List.mem_cons.mp hr with heq | hr
      · exact hret t' job r h.1 heq.symm
      · exact h.2 t' r hr
  | cons child callers ih =>
      obtain ⟨hp, hf, hnot, hw⟩ := h
      refine ⟨hp, List.mem_cons_of_mem _ hf, fun hr => hnot (hrel child List.mem_cons_self hr), ?_⟩
      exact ih hw (fun c hc => hrel c (List.mem_cons_of_mem _ hc))

/-- Decrements and new calls leave the callers waiting. -/
theorem Waits.cons_of_not_end (h : Waits parent log t job callers)
    (hrel : ∀ t' c d, e ≠ .released t' c d) (hret : ∀ t' b c r, e ≠ .returned t' b c r) :
    Waits parent (e :: log) t job callers := by
  refine h.cons (fun c _ hc => ?_) (fun t' b r _ => hret t' b none r)
  rcases released_cons.mp hc with ⟨t', d, heq⟩ | hc
  · exact absurd heq (hrel t' c d)
  · exact hc

/-- **Frame rule.** What a thread's calls did is not touched by the events of the others. -/
theorem Activation.Ok.frame (hF : Forest parent A) (h : Proper parent A (e :: log))
    (he : e.thread ≠ t) (hok : act.Ok parent log t) : act.Ok parent (e :: log) t := by
  obtain ⟨point, job, callers⟩ := act
  obtain ⟨hw, hp⟩ := hok
  have hfresh : ∀ {c}, .fetchSub t job c 1 ∈ log → Fresh parent log job →
      Fresh parent (e :: log) job := by
    intro c hf hfresh
    refine ⟨h.not_released_cons hF hf he hfresh.1, fun p hp => ?_⟩
    exact h.not_counted_cons hF (c := some job) ⟨hp, c, hf⟩ he (hfresh.2 p hp)
  constructor
  · refine hw.cons (fun c hc hrel => ?_) (fun t' b r hb heq => ?_)
    · obtain ⟨d, hd⟩ := hw.last c hc
      by_contra hnot
      exact h.not_released_cons hF hd he hnot hrel
    · -- the thread that returns from the call for `b` is the one that made it
      subst heq
      obtain ⟨r', hf⟩ := h.counted_of_returned List.mem_cons_self
      rcases List.mem_cons.mp hf with heq | hf
      · cases heq
      · exact he (h.2.called_unique (h.2.entered_of_fetchSub hf) hb)
  · cases point with
    | fetchSub => exact h.not_counted_cons hF hw.entered he hp
    | test remaining =>
        refine ⟨List.mem_cons_of_mem _ hp.1, fun hle => ?_⟩
        have hpos : 0 < remaining := h.2.remaining_pos hF hp.1
        have hone : remaining = 1 := by omega
        exact hfresh (hone ▸ hp.1) (hp.2 hle)
    | ascend => exact ⟨List.mem_cons_of_mem _ hp.1, hfresh hp.1 hp.2⟩
    | recycle =>
        obtain ⟨hf, hnot, htold⟩ := hp
        exact ⟨List.mem_cons_of_mem _ hf, h.not_released_cons hF hf he hnot,
          fun p hp => (htold p hp).cons⟩
    | ret result =>
        cases result with
        | true => exact List.mem_cons_of_mem _ hp
        | false =>
            obtain ⟨r, hlt, hf⟩ := hp
            exact ⟨r, hlt, List.mem_cons_of_mem _ hf⟩

end Threads

/-! ## The counters -/

section Counters

variable {parent : Addr → Option Addr} {A : Finset Addr} {x x' : Calls}
  {e : Countdown.Event Addr Tid} {t : Tid} {job : Addr} {callers : List Addr}
  {o : Option Activation}

/-- At this point the job of the call is at zero, and not released. -/
def Point.holds : Point → Bool
  | .test remaining => remaining ≤ 1
  | .ascend | .recycle => true
  | .fetchSub | .ret _ => false

/-- The jobs that a thread is about to release. -/
def held : Option Activation → List Addr
  | none => []
  | some act => if act.point.holds then act.job :: act.callers else act.callers

theorem mem_held {act : Activation} {a : Addr} (ha : a ∈ act.callers) : a ∈ held (some act) := by
  show a ∈ if act.point.holds then act.job :: act.callers else act.callers
  split
  · exact List.mem_cons_of_mem _ ha
  · exact ha

/-- **The accounting.** The log is a proper one, the counters are what it leaves outstanding,
every thread is where the log says, and a job at zero is released or held by the thread that
took it there. -/
structure Sound (parent : Addr → Option Addr) (A : Finset Addr) (x : Calls) : Prop where
  proper : Proper parent A x.log
  parents : ∀ a, (x.base.jobs a).parent = parent a
  counter : ∀ a ∈ A, (x.base.jobs a).numChildren = (outstanding parent A x.log a).card
  active : ∀ t act, x.active t = some act → act.Ok parent x.log t
  held : ∀ t a c, .fetchSub t a c 1 ∈ x.log → Released x.log a ∨ a ∈ held (x.active t)

/-- A statement that is only about the thread itself. -/
theorem Sound.goto (h : Sound parent A x) (ho : ∀ act ∈ o, act.Ok parent x.log t)
    (hheld : ∀ a ∈ Cascade.held (x.active t), a ∈ Cascade.held o) :
    Sound parent A (x.goto t o) := by
  refine ⟨h.proper, h.parents, h.counter, fun t' act hact => ?_, fun t' a c hf => ?_⟩
  · by_cases ht : t' = t
    · subst ht
      rw [goto_active_self] at hact
      exact ho act hact
    · have hold : x.active t' = some act := (Function.update_of_ne ht ..).symm.trans hact
      exact h.active t' act hold
  · apply (h.held t' a c hf).imp_right
    intro ha
    by_cases ht : t' = t
    · subst ht
      rw [goto_active_self]
      exact hheld a ha
    · show a ∈ Cascade.held (Function.update x.active t o t')
      rwa [Function.update_of_ne ht]

/-- A statement that records an event. -/
theorem Sound.record (hF : Forest parent A) (h : Sound parent A x) (ht : e.thread = t)
    (he : e.Allowed parent A x.log) (hlog : x'.log = e :: x.log)
    (hactive : x'.active = Function.update x.active t o)
    (hparents : ∀ a, (x'.base.jobs a).parent = (x.base.jobs a).parent)
    (hcounter : ∀ a ∈ A, (x'.base.jobs a).numChildren = (outstanding parent A (e :: x.log) a).card)
    (ho : ∀ act ∈ o, act.Ok parent (e :: x.log) t)
    (hheld : ∀ a ∈ Cascade.held (x.active t), Released (e :: x.log) a ∨ a ∈ Cascade.held o)
    (hnew : ∀ a c, e = .fetchSub t a c 1 → a ∈ Cascade.held o) :
    Sound parent A x' := by
  have hproper : Proper parent A (e :: x.log) := ⟨he, h.proper⟩
  refine ⟨hlog ▸ hproper, fun a => (hparents a).trans (h.parents a), fun a ha => ?_,
    fun t' act hact => ?_, fun t' a c hf => ?_⟩
  · rw [hlog]
    exact hcounter a ha
  · rw [hactive] at hact
    rw [hlog]
    by_cases ht' : t' = t
    · subst ht'
      rw [Function.update_self] at hact
      exact ho act hact
    · rw [Function.update_of_ne ht'] at hact
      exact (h.active t' act hact).frame hF hproper (fun heq => ht' (heq.symm.trans ht))
  · rw [hlog] at hf ⊢
    rw [hactive]
    by_cases ht' : t' = t
    · subst ht'
      rw [Function.update_self]
      rcases List.mem_cons.mp hf with heq | hf
      · exact Or.inr (hnew a c heq.symm)
      · rcases h.held t' a c hf with hrel | ha
        · exact Or.inl hrel.cons
        · exact hheld a ha
    · rw [Function.update_of_ne ht']
      rcases List.mem_cons.mp hf with rfl | hf
      · exact absurd ht ht'
      · exact (h.held t' a c hf).imp_left Released.cons

/-- `fetch_sub` finds the share of its call outstanding. -/
theorem Sound.outstanding_mem (hF : Forest parent A) (h : Sound parent A x)
    (hx : x.active t = some ⟨.fetchSub, job, callers⟩) :
    job ∈ A ∧ callers.head? ∈ outstanding parent A x.log job := by
  obtain ⟨hw, hnot⟩ := h.active t _ hx
  have henter := hw.entered
  exact ⟨h.proper.entered_mem hF henter,
    mem_outstanding.mpr ⟨h.proper.mem_shares hF henter, hnot⟩⟩

theorem Sound.fetchSub (hF : Forest parent A) (h : Sound parent A x)
    (hsmall : ∀ a ∈ A, (children parent A a).card + 1 < 2 ^ 32)
    (hx : x.active t = some ⟨.fetchSub, job, callers⟩) :
    Sound parent A (jobCompleted x t ⟨.fetchSub, job, callers⟩) := by
  obtain ⟨hjob, hmem⟩ := h.outstanding_mem hF hx
  obtain ⟨hw, hnot⟩ := h.active t _ hx
  have hremaining := h.counter job hjob
  have hne : outstanding parent A x.log job ≠ ∅ := Finset.ne_empty_of_mem hmem
  have hpos : 0 < (x.base.jobs job).numChildren := hremaining ▸ Finset.card_pos.mpr ⟨_, hmem⟩
  refine h.record (e := .fetchSub t job callers.head? (x.base.jobs job).numChildren) (t := t)
    hF rfl ⟨hw.entered, hnot, hremaining⟩ rfl rfl
    (fun a => ?_) (fun a ha => ?_) ?_ (fun a ha => ?_) (fun a c heq => ?_)
  · show (Function.update x.base.jobs job _ a).parent = _
    by_cases haj : a = job
    · subst haj
      rw [Function.update_self]
    · rw [Function.update_of_ne haj]
  · show (Function.update x.base.jobs job _ a).numChildren = _
    by_cases haj : a = job
    · subst haj
      have hle : (x.base.jobs a).numChildren ≤ 2 ^ 32 := by
        have hcard := card_outstanding_le (A := A) parent x.log a
        have hlt := hsmall a ha
        omega
      rw [Function.update_self, outstanding_fetchSub, Finset.card_erase_of_mem hmem]
      show pred32 (x.base.jobs a).numChildren = _
      rw [pred32_of_pos hpos hle, hremaining]
    · rw [Function.update_of_ne haj, h.counter a ha, outstanding_of_not_fetchSub]
      intro t' c r heq
      exact haj (Countdown.Event.fetchSub.inj heq).2.1.symm
  · -- a job that was at zero, or told its parent, would have nothing outstanding
    rintro act ⟨⟩
    refine ⟨hw.cons_of_not_end (by simp) (by simp), List.mem_cons_self, fun hle => ⟨?_, ?_⟩⟩
    · intro hrel
      rcases released_cons.mp hrel with ⟨t', d, heq⟩ | ⟨t', d, hrel⟩
      · cases heq
      · exact hne (h.proper.empty_of_last hF (h.proper.last_of_released hrel).1)
    · intro p hp htold
      rcases counted_cons.mp htold with ⟨t', r, heq⟩ | ⟨t', r, hf⟩
      · obtain ⟨-, -, hhead, -⟩ := Countdown.Event.fetchSub.inj heq
        obtain ⟨d, hd⟩ : ∃ d, .fetchSub t job d 1 ∈ x.log := by
          have henter := hw.entered
          rw [hhead] at henter
          exact henter.2
        exact hne (h.proper.empty_of_last hF hd)
      · obtain ⟨-, d, hd⟩ := h.proper.entered_of_fetchSub hf
        exact hne (h.proper.empty_of_last hF hd)
  · rw [hx] at ha
    have hcallers : a ∈ callers := ha
    exact Or.inr (mem_held hcallers)
  · obtain ⟨-, rfl, -, hone⟩ := Countdown.Event.fetchSub.inj heq
    simp [Cascade.held, Point.holds, hone]

theorem Sound.test {remaining : Nat} (hF : Forest parent A) (h : Sound parent A x)
    (hx : x.active t = some ⟨.test remaining, job, callers⟩) :
    Sound parent A (jobCompleted x t ⟨.test remaining, job, callers⟩) := by
  obtain ⟨hw, hf, hfresh⟩ := h.active t _ hx
  have hpos := h.proper.remaining_pos hF hf
  refine h.goto ?_ ?_
  · rintro act ⟨⟩
    by_cases hle : remaining ≤ 1
    · have hone : remaining = 1 := by omega
      subst hone
      exact ⟨hw, hf, hfresh hle⟩
    · rw [if_neg hle]
      exact ⟨hw, remaining, by omega, hf⟩
  · intro a ha
    rw [hx] at ha
    by_cases hle : remaining ≤ 1
    · simpa [Cascade.held, Point.holds, hle] using ha
    · simpa [Cascade.held, Point.holds, hle] using ha

theorem Sound.ascend (h : Sound parent A x)
    (hx : x.active t = some ⟨.ascend, job, callers⟩) :
    Sound parent A (jobCompleted x t ⟨.ascend, job, callers⟩) := by
  obtain ⟨hw, hf, hfresh⟩ := h.active t _ hx
  simp only [jobCompleted, h.parents job]
  cases hp : parent job with
  | none =>
      refine h.goto ?_ (fun a ha => ?_)
      · rintro act ⟨⟩
        exact ⟨hw, hf, hfresh.1, fun p hp' => by rw [hp] at hp'; cases hp'⟩
      · rw [hx] at ha
        exact ha
  | some p =>
      refine h.goto ?_ (fun a ha => ?_)
      · rintro act ⟨⟩
        exact ⟨⟨hp, hf, hfresh.1, hw⟩, hfresh.2 p hp⟩
      · rw [hx] at ha
        exact ha

theorem Sound.recycle (hF : Forest parent A) (h : Sound parent A x)
    (hx : x.active t = some ⟨.recycle, job, callers⟩) :
    Sound parent A (jobCompleted x t ⟨.recycle, job, callers⟩) := by
  obtain ⟨hw, hf, hnot, htold⟩ := h.active t _ hx
  have hjob : job ∈ A := h.proper.fetchSub_mem hF hf
  have hjobs : (JobSystem.recycle x.base t job).jobs = x.base.jobs := by
    obtain ⟨q, -, hrec⟩ := recycle_eq x.base t job
    rw [hrec]
    rfl
  refine h.record (e := .released t job callers.head?) (t := t)
    hF rfl ⟨hf, hnot, htold⟩ rfl rfl (fun a => ?_) (fun a ha => ?_) ?_
    (fun a ha => ?_) (fun a c heq => ?_)
  · show ((JobSystem.recycle x.base t job).jobs a).parent = _
    rw [hjobs]
  · show ((JobSystem.recycle x.base t job).jobs a).numChildren = _
    rw [hjobs, h.counter a ha, outstanding_of_not_fetchSub (by simp)]
  · rintro act ⟨⟩
    refine ⟨hw.cons (fun c hc hrel => ?_) (by simp), List.mem_cons_self⟩
    -- a caller is below the job, so it is another one
    rcases released_cons.mp hrel with ⟨t', d, heq⟩ | hrel
    · obtain ⟨-, rfl, -⟩ := Countdown.Event.released.inj heq
      exact absurd (hw.below job hc) (hF.acyclic job hjob)
    · exact hrel
  · rw [hx] at ha
    rcases List.mem_cons.mp ha with rfl | ha
    · exact Or.inl ⟨t, _, List.mem_cons_self⟩
    · exact Or.inr ha
  · cases heq

theorem Sound.ret {result : Bool} (hF : Forest parent A) (h : Sound parent A x)
    (hx : x.active t = some ⟨.ret result, job, callers⟩) :
    Sound parent A (jobCompleted x t ⟨.ret result, job, callers⟩) := by
  obtain ⟨hw, hp⟩ := h.active t _ hx
  -- a call returns `true` after its release, and `false` after a `fetch_sub` that left a share
  have hallowed : (Countdown.Event.returned t job callers.head? result).Allowed parent A x.log := by
    cases result with
    | true => exact hp
    | false => exact hp
  have hcounted : Counted x.log job callers.head? := by
    cases result with
    | true => exact ⟨t, 1, (h.proper.last_of_released hp).1⟩
    | false =>
        obtain ⟨r, -, hf⟩ := hp
        exact ⟨t, r, hf⟩
  refine h.record (t := t) hF rfl hallowed rfl rfl (fun a => rfl) (fun a ha => ?_) ?_
    (fun a ha => Or.inr ?_) (fun a c heq => ?_)
  · rw [outstanding_of_not_fetchSub (by simp)]
    exact h.counter a ha
  · intro act hact
    cases callers with
    | nil => cases hact
    | cons child callers =>
        -- the call goes on for the child, whose last share it took
        cases hact
        obtain ⟨hpc, hf, hnot, hw⟩ := hw
        have hrel : ¬ Released (.returned t job (some child) result :: x.log) child := by
          rw [released_cons]
          rintro (⟨t', d, heq⟩ | hrel)
          · cases heq
          · exact hnot hrel
        refine ⟨hw.cons (fun c _ hrel => ?_) (by simp), List.mem_cons_of_mem _ hf, hrel, ?_⟩
        · rcases released_cons.mp hrel with ⟨t', d, heq⟩ | hrel
          · cases heq
          · exact hrel
        · intro p hp'
          obtain rfl : job = p := Option.some.inj (hpc.symm.trans hp')
          exact hcounted.cons
  · rw [hx] at ha
    cases callers with
    | nil => exact ha
    | cons child callers => exact ha
  · cases heq

theorem Sound.next (hF : Forest parent A) (h : Sound parent A x)
    (hsmall : ∀ a ∈ A, (children parent A a).card + 1 < 2 ^ 32)
    {act : Activation} (hx : x.active t = some act) : Sound parent A (jobCompleted x t act) := by
  obtain ⟨point, job, callers⟩ := act
  cases point with
  | fetchSub => exact h.fetchSub hF hsmall hx
  | test remaining => exact h.test hF hx
  | ascend => exact h.ascend hx
  | recycle => exact h.recycle hF hx
  | ret result => exact h.ret hF hx

/-- A thread calls for a job that was run. -/
theorem Sound.call (hF : Forest parent A) (h : Sound parent A x) (hidle : x.active t = none)
    (hjob : job ∈ A) (hnew : ∀ t, .called t job ∉ x.log) (hlog : x'.log = .called t job :: x.log)
    (hactive : x'.active = Function.update x.active t (some ⟨.fetchSub, job, []⟩))
    (hbase : x'.base = x.base) : Sound parent A x' := by
  have hfirst : ∀ {t' c r}, c = none → .fetchSub t' job c r ∉ x.log := by
    rintro t' c r rfl hf
    exact hnew t' (h.proper.entered_of_fetchSub hf)
  refine h.record (e := .called t job) (t := t) hF rfl ⟨hjob, hnew⟩ hlog hactive
    (fun a => by rw [hbase]) (fun a ha => ?_) ?_ (fun a ha => ?_) (fun a c heq => ?_)
  · rw [hbase, outstanding_of_not_fetchSub (by simp)]
    exact h.counter a ha
  · rintro act ⟨⟩
    refine ⟨⟨List.mem_cons_self, fun t' r hr => ?_⟩, fun hc => ?_⟩
    · rcases List.mem_cons.mp hr with heq | hr
      · cases heq
      · obtain ⟨r', hf⟩ := h.proper.counted_of_returned hr
        exact hfirst rfl hf
    · rcases counted_cons.mp hc with ⟨t', r, heq⟩ | ⟨t', r, hf⟩
      · cases heq
      · exact hfirst rfl hf
  · rw [hidle] at ha
    cases ha
  · cases heq

end Counters

/-! ## The queues -/

section Queues

variable {parent : Addr → Option Addr} {A : Finset Addr} {x x' : Calls} {t : Tid} {job : Addr}

/-- Where the jobs are: a job whose call was not made yet is due or in a queue, and a released
one is in a bin. -/
structure Placed (A : Finset Addr) (x : Calls) : Prop where
  wellFormed : x.base.store.WellFormed
  nodup : x.due.Nodup
  due : ∀ a ∈ x.due, a ∈ A ∧ ∀ t, .called t a ∉ x.log
  queued : ∀ q a, q.isBin = false → x.base.store.Linked q a →
    a ∈ A ∧ a ∉ x.due ∧ ∀ t, .called t a ∉ x.log
  binned : ∀ q, ∀ a ∈ A, q.isBin = true → x.base.store.Linked q a → Released x.log a
  released : ∀ a, Released x.log a → ∃ q, q.isBin = true ∧ x.base.store.Linked q a

theorem Placed.frame (h : Placed A x) (hstore : x'.base.store = x.base.store)
    (hdue : x'.due = x.due) (hcalled : ∀ {t a}, .called t a ∈ x'.log → .called t a ∈ x.log)
    (hrel : ∀ {a}, Released x'.log a ↔ Released x.log a) : Placed A x' := by
  refine ⟨hstore ▸ h.wellFormed, hdue ▸ h.nodup, fun a ha => ?_, fun q a hq hl => ?_,
    fun q a ha hq hl => ?_, fun a ha => ?_⟩
  · obtain ⟨hA, hnew⟩ := h.due a (hdue ▸ ha)
    exact ⟨hA, fun t hc => hnew t (hcalled hc)⟩
  · obtain ⟨hA, hnot, hnew⟩ := h.queued q a hq (hstore ▸ hl)
    exact ⟨hA, hdue ▸ hnot, fun t hc => hnew t (hcalled hc)⟩
  · exact hrel.mpr (h.binned q a ha hq (hstore ▸ hl))
  · rw [hstore]
    exact h.released a (hrel.mp ha)

/-- Decrements and returns move no job. -/
theorem Placed.event {e : Countdown.Event Addr Tid} (h : Placed A x)
    (hstore : x'.base.store = x.base.store) (hdue : x'.due = x.due) (hlog : x'.log = e :: x.log)
    (hcalled : ∀ t a, e ≠ .called t a) (hrel : ∀ t a c, e ≠ .released t a c) : Placed A x' := by
  refine h.frame hstore hdue (fun {t a} hc => ?_) (fun {a} => ?_)
  · rw [hlog] at hc
    rcases List.mem_cons.mp hc with heq | hc
    · exact absurd heq.symm (hcalled t a)
    · exact hc
  · rw [hlog, released_cons]
    constructor
    · rintro (⟨t, c, heq⟩ | hr)
      · exact absurd heq (hrel t a c)
      · exact hr
    · exact Or.inr

/-- A job in the hands of a thread is in no queue, and is put into a bin. -/
theorem Placed.recycle_store (hF : Forest parent A) (hs : Sound parent A x) (h : Placed A x)
    {callers : List Addr} (hx : x.active t = some ⟨.recycle, job, callers⟩) :
    ∃ bin : QueueId, bin.isBin = true ∧
      (jobCompleted x t ⟨.recycle, job, callers⟩).base.store.WellFormed ∧
      ∀ {q b}, (jobCompleted x t ⟨.recycle, job, callers⟩).base.store.Linked q b ↔
        x.base.store.Linked q b ∨ (q = bin ∧ b = job) := by
  obtain ⟨-, hf, hnot, -⟩ := hs.active t _ hx
  have hjob : job ∈ A := hs.proper.fetchSub_mem hF hf
  obtain ⟨t', ht'⟩ := hs.proper.called_of_last hF hf
  have hout : ∀ q, ¬ x.base.store.Linked q job := by
    intro q hl
    cases hq : q.isBin with
    | true => exact hnot (h.binned q job hjob hq hl)
    | false => exact (h.queued q job hq hl).2.2 t' ht'
  obtain ⟨bin, hbin, hstore⟩ : ∃ q, q.isBin = true ∧
      (JobSystem.recycle x.base t job).store = x.base.store.push q job := by
    obtain ⟨q, hq, hrec⟩ := recycle_eq x.base t job
    refine ⟨q, ?_, by rw [hrec]⟩
    rcases hq with rfl | rfl <;> rfl
  have hnew : (jobCompleted x t ⟨.recycle, job, callers⟩).base.store =
      x.base.store.push bin job := hstore
  rw [hnew]
  exact ⟨bin, hbin, h.wellFormed.push hout⟩

theorem Placed.recycle (hF : Forest parent A) (hs : Sound parent A x) (h : Placed A x)
    {callers : List Addr} (hx : x.active t = some ⟨.recycle, job, callers⟩) :
    Placed A (jobCompleted x t ⟨.recycle, job, callers⟩) := by
  obtain ⟨bin, hbin, hwf, hlinked⟩ := h.recycle_store hF hs hx
  have hcalled : ∀ {t₁ a}, .called t₁ a ∈ (jobCompleted x t ⟨.recycle, job, callers⟩).log →
      .called t₁ a ∈ x.log := by
    intro t₁ a hc
    rcases List.mem_cons.mp hc with heq | hc
    · cases heq
    · exact hc
  refine ⟨hwf, h.nodup, fun a ha => ?_, fun q a hq hl => ?_, fun q a ha hq hl => ?_,
    fun a ha => ?_⟩
  · obtain ⟨hA, hnc⟩ := h.due a ha
    exact ⟨hA, fun t₁ hc => hnc t₁ (hcalled hc)⟩
  · rcases hlinked.mp hl with hl | ⟨rfl, -⟩
    · obtain ⟨hA, hd, hnc⟩ := h.queued q a hq hl
      exact ⟨hA, hd, fun t₁ hc => hnc t₁ (hcalled hc)⟩
    · rw [hbin] at hq
      cases hq
  · rcases hlinked.mp hl with hl | ⟨-, rfl⟩
    · exact (h.binned q a ha hq hl).cons
    · exact ⟨t, _, List.mem_cons_self⟩
  · rcases released_cons.mp ha with ⟨t₁, c, heq⟩ | ha
    · obtain ⟨-, rfl, -⟩ := Countdown.Event.released.inj heq
      exact ⟨bin, hbin, hlinked.mpr (Or.inr ⟨rfl, rfl⟩)⟩
    · obtain ⟨q, hq, hl⟩ := h.released a ha
      exact ⟨q, hq, hlinked.mpr (Or.inl hl)⟩

theorem Placed.next (hF : Forest parent A) (hs : Sound parent A x) (h : Placed A x)
    {act : Activation} (hx : x.active t = some act) : Placed A (jobCompleted x t act) := by
  obtain ⟨point, job, callers⟩ := act
  cases point with
  | fetchSub => exact h.event rfl rfl rfl (by simp) (by simp)
  | test remaining => exact h.frame rfl rfl id Iff.rfl
  | ascend =>
      simp only [jobCompleted]
      split
      · exact h.frame rfl rfl id Iff.rfl
      · exact h.frame rfl rfl id Iff.rfl
  | recycle => exact h.recycle hF hs hx
  | ret result => exact h.event rfl rfl rfl (by simp) (by simp)

/-- A thread calls for a job that is due. -/
theorem Placed.call (h : Placed A x) (hjob : job ∈ x.due) (hstore : x'.base.store = x.base.store)
    (hdue : x'.due = x.due.erase job) (hlog : x'.log = .called t job :: x.log) :
    Placed A x' := by
  have hrel : ∀ {a}, Released x'.log a ↔ Released x.log a := by
    intro a
    rw [hlog, released_cons]
    simp
  have hcalled : ∀ {t' a}, a ≠ job → .called t' a ∈ x'.log → .called t' a ∈ x.log := by
    intro t' a hne hc
    rw [hlog] at hc
    rcases List.mem_cons.mp hc with heq | hc
    · exact absurd (Countdown.Event.called.inj heq).2 hne
    · exact hc
  refine ⟨hstore ▸ h.wellFormed, hdue ▸ h.nodup.erase job, fun a ha => ?_, fun q a hq hl => ?_,
    fun q a ha hq hl => ?_, fun a ha => ?_⟩
  · rw [hdue, h.nodup.mem_erase_iff] at ha
    obtain ⟨hA, hnew⟩ := h.due a ha.2
    exact ⟨hA, fun t' hc => hnew t' (hcalled ha.1 hc)⟩
  · obtain ⟨hA, hnot, hnew⟩ := h.queued q a hq (hstore ▸ hl)
    have hne : a ≠ job := fun heq => hnot (heq ▸ hjob)
    refine ⟨hA, fun hd => hnot ?_, fun t' hc => hnew t' (hcalled hne hc)⟩
    rw [hdue] at hd
    exact List.mem_of_mem_erase hd
  · exact hrel.mpr (h.binned q a ha hq (hstore ▸ hl))
  · rw [hstore]
    exact h.released a (hrel.mp ha)

/-- A worker pops a queue: the job is due from then on. -/
theorem Placed.run {q : QueueId} {store : Store QueueId Addr} (hF : Forest parent A)
    (hs : Sound parent A x) (h : Placed A x) (hq : q.isBin = false)
    (hpop : x.base.store.pop q = (some job, store)) (hstore : x'.base.store = store)
    (hdue : x'.due = job :: x.due) (hlog : x'.log = x.log) : Placed A x' := by
  obtain ⟨hwf, hl, hlinked⟩ := h.wellFormed.pop_some hpop
  obtain ⟨hA, hnot, hnew⟩ := h.queued q job hq hl
  subst hstore
  refine ⟨hwf, hdue ▸ List.nodup_cons.mpr ⟨hnot, h.nodup⟩, fun a ha => ?_, fun q' a hq' hl' => ?_,
    fun q' a ha hq' hl' => ?_, fun a ha => ?_⟩
  · rw [hlog]
    rw [hdue] at ha
    rcases List.mem_cons.mp ha with rfl | ha
    · exact ⟨hA, hnew⟩
    · exact h.due a ha
  · rw [hlog, hdue]
    obtain ⟨hl', hne⟩ := hlinked.mp hl'
    obtain ⟨hA', hnot', hnew'⟩ := h.queued q' a hq' hl'
    refine ⟨hA', fun ha => ?_, hnew'⟩
    rcases List.mem_cons.mp ha with heq | ha
    · exact hne heq
    · exact hnot' ha
  · rw [hlog]
    exact h.binned q' a ha hq' (hlinked.mp hl').1
  · rw [hlog] at ha
    obtain ⟨q', hq', hl'⟩ := h.released a ha
    refine ⟨q', hq', hlinked.mpr ⟨hl', ?_⟩⟩
    -- a released job was called for, and the popped one was not
    rintro rfl
    obtain ⟨t, hc⟩ := hs.proper.called_of_released hF ha
    exact hnew t hc

end Queues

end Bop.JobSystem.Cascade
