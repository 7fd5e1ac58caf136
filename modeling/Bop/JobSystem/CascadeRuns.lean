import Mathlib.Algebra.BigOperators.Group.Finset.Piecewise
import Mathlib.Algebra.Order.BigOperators.Group.Finset
import Bop.JobSystem.Cascade

set_option autoImplicit false

/-! # Runs of the calls of job_completed

The calls that are due for a forest of jobs (`Start`), executed by any threads in any order. What
`Cascade.lean` shows of one statement holds in every state of a run.

The calls come to an end. Every decrement of a counter is followed by four statements at most that
are due to it, so `potential` goes down with each step, and a run is not longer than it was at the
start. A thread in a call always has a next statement, and where nothing can be done any more all
calls have returned. `job_completed_correct` puts it together.
-/

namespace Bop.JobSystem.Cascade

open Countdown
open scoped BigOperators

/-! ## The cascade -/

section Cascade

variable {A : Finset Addr} {x₀ x x' : Calls} {tr : List (Calls × Action)}

/-- The calls are those of the finite forest `A`: the counter of a job is one for its own run
and one for each child, and the job is due for its own call, or in a queue to be run. -/
structure Start (A : Finset Addr) (x : Calls) : Prop where
  forest : Forest (fun a => (x.base.jobs a).parent) A
  numChildren : ∀ a ∈ A, (x.base.jobs a).numChildren =
    1 + (children (fun a => (x.base.jobs a).parent) A a).card
  small : ∀ a ∈ A, (x.base.jobs a).numChildren < 2 ^ 32
  wellFormed : x.base.store.WellFormed
  due_nodup : x.due.Nodup
  pending : ∀ a ∈ A, (a ∈ x.due ∧ ∀ q, ¬ x.base.store.Linked q a) ∨
    (a ∉ x.due ∧ ∃ q, q.isBin = false ∧ x.base.store.Linked q a)
  due_mem : ∀ a ∈ x.due, a ∈ A
  queued_mem : ∀ q a, q.isBin = false → x.base.store.Linked q a → a ∈ A
  idle : ∀ t, x.active t = none
  log : x.log = []

/-- The invariant of the runs. -/
def Invariant (parent : Addr → Option Addr) (A : Finset Addr) (x : Calls) : Prop :=
  Sound parent A x ∧ Placed A x

theorem Start.invariant (h : Start A x) : Invariant (fun a => (x.base.jobs a).parent) A x := by
  constructor
  · refine ⟨h.log ▸ trivial, fun _ => rfl, fun a ha => ?_, fun t act hact => ?_,
      fun t a c hf => ?_⟩
    · rw [h.log, outstanding_nil, card_shares, h.numChildren a ha, Nat.add_comm]
    · rw [h.idle t] at hact
      cases hact
    · rw [h.log] at hf
      cases hf
  · refine ⟨h.wellFormed, h.due_nodup, fun a ha => ⟨h.due_mem a ha, ?_⟩,
      fun q a hq hl => ⟨h.queued_mem q a hq hl, fun hd => ?_, ?_⟩, fun q a ha hq hl => ?_,
      fun a ⟨t, c, hr⟩ => ?_⟩
    · simp [h.log]
    · rcases h.pending a (h.due_mem a hd) with ⟨-, hout⟩ | ⟨hnot, -⟩
      · exact hout q hl
      · exact hnot hd
    · simp [h.log]
    · exfalso
      rcases h.pending a ha with ⟨-, hout⟩ | ⟨-, q', hq', hl'⟩
      · exact hout q hl
      · have heq := h.wellFormed.linked_unique hl hl'
        rw [heq, hq'] at hq
        cases hq
    · rw [h.log] at hr
      cases hr

/-! What the steps are that begin something. -/

theorem step_run {q : QueueId} (hs : Cascade.step x (.run q) = some x') :
    q.isBin = false ∧ ∃ job store, JobQueue.pop x.base.store q = (some job, store) ∧
      x' = { x with base := { x.base with store := store }, due := job :: x.due } := by
  cases hq : q.isBin with
  | true => simp [Cascade.step, hq] at hs
  | false =>
      cases hpop : JobQueue.pop x.base.store q with
      | mk o store =>
          cases o with
          | none => simp [Cascade.step, hq, hpop] at hs
          | some job =>
              obtain rfl : _ = x' := by simpa [Cascade.step, hq, hpop] using hs
              exact ⟨rfl, job, store, rfl, rfl⟩

theorem step_call {t : Tid} {job : Addr} (hs : Cascade.step x (.call t job) = some x') :
    x.active t = none ∧ job ∈ x.due ∧
      x' = { (x.goto t (some ⟨.fetchSub, job, []⟩)).record (.called t job) with
        due := x.due.erase job } := by
  by_cases hc : x.active t = none ∧ job ∈ x.due
  · rw [Cascade.step, if_pos hc] at hs
    exact ⟨hc.1, hc.2, (Option.some.inj hs).symm⟩
  · rw [Cascade.step, if_neg hc] at hs
    cases hs

theorem Invariant.step {parent : Addr → Option Addr} (hF : Forest parent A)
    (hsmall : ∀ a ∈ A, (children parent A a).card + 1 < 2 ^ 32) (h : Invariant parent A x)
    {a : Action} (hs : Cascade.step x a = some x') : Invariant parent A x' := by
  obtain ⟨hsound, hplaced⟩ := h
  cases a with
  | run q =>
      obtain ⟨hq, job, store, hpop, rfl⟩ := step_run hs
      exact ⟨⟨hsound.proper, hsound.parents, hsound.counter, hsound.active, hsound.held⟩,
        hplaced.run hF hsound hq hpop rfl rfl rfl⟩
  | call t job =>
      obtain ⟨hidle, hdue, rfl⟩ := step_call hs
      obtain ⟨hA, hnew⟩ := hplaced.due job hdue
      exact ⟨hsound.call hF hidle hA hnew rfl rfl rfl, hplaced.call hdue rfl rfl rfl⟩
  | next t =>
      obtain ⟨act, hact, rfl⟩ := Option.map_eq_some_iff.mp hs
      exact ⟨hsound.next hF hsmall hact, hplaced.next hF hsound hact⟩

theorem Start.children_small (h : Start A x₀) :
    ∀ a ∈ A, (children (fun a => (x₀.base.jobs a).parent) A a).card + 1 < 2 ^ 32 := by
  intro a ha
  have hn := h.numChildren a ha
  have hlt := h.small a ha
  omega

theorem Start.run (h : Start A x₀) (hrun : Transition.Run Cascade.step x₀ tr x) :
    Invariant (fun a => (x₀.base.jobs a).parent) A x :=
  hrun.invariant (C := fun _ _ => True) h.invariant
    (fun hI _ hs => hI.step h.forest h.children_small hs) (fun _ _ => trivial)

/-- The outermost call of a thread did not return. -/
theorem Waits.not_returned {parent : Addr → Option Addr}
    {log : List (Countdown.Event Addr Tid)} {t : Tid} {job : Addr} {callers : List Addr}
    (h : Waits parent log t job callers) :
    ∃ a, .called t a ∈ log ∧ ∀ t' r, .returned t' a none r ∉ log := by
  induction callers generalizing job with
  | nil => exact ⟨job, h⟩
  | cons child callers ih => exact ih h.2.2.2

/-- **All calls returned.** Then every job of the forest was released, and its counter is zero. -/
theorem Sound.finished {parent : Addr → Option Addr} (hF : Forest parent A)
    (h : Sound parent A x) (hret : ∀ a ∈ A, ∃ t r, .returned t a none r ∈ x.log) :
    ∀ a ∈ A, (x.base.jobs a).numChildren = 0 ∧ Released x.log a := by
  -- a thread in a call is in an outermost one, which returned
  have hidle : ∀ t, x.active t = none := by
    intro t
    by_contra hne
    obtain ⟨act, hact⟩ := Option.ne_none_iff_exists'.mp hne
    obtain ⟨a, hc, hnot⟩ := (h.active t act hact).1.not_returned
    obtain ⟨t', r, hr⟩ := hret a (h.proper.called_mem hc)
    exact hnot t' r hr
  have hreleased : ∀ a, outstanding parent A x.log a = ∅ → Released x.log a := by
    intro a ha
    obtain ⟨t, c, hf⟩ := h.proper.last_of_empty ha
    rcases h.held t a c hf with hrel | hheld
    · exact hrel
    · rw [hidle t] at hheld
      cases hheld
  have hempty : ∀ a ∈ A, outstanding parent A x.log a = ∅ := by
    refine outstanding_eq_empty hF (fun a ha => ?_) (fun a _ ha => ?_)
    · obtain ⟨t, r, hr⟩ := hret a ha
      obtain ⟨r', hf⟩ := h.proper.counted_of_returned hr
      exact ⟨t, r', hf⟩
    · obtain ⟨t, c, hr⟩ := hreleased a ha
      exact (h.proper.last_of_released hr).2
  intro a ha
  refine ⟨?_, hreleased a (hempty a ha)⟩
  rw [h.counter a ha, hempty a ha, Finset.card_empty]

end Cascade

/-! ## The calls return

The job of the outermost call that a thread is in is the one it was called for. -/

section Return

variable {parent : Addr → Option Addr} {A : Finset Addr} {x₀ x x' : Calls} {t : Tid} {job : Addr}
  {act : Activation} {tr : List (Calls × Action)} {a : Action}

def outermost : Option Activation → Option Addr
  | none => none
  | some act => (act.job :: act.callers).getLast?

/-- A job is due, or in a queue, or it was called for, by a thread that is in this call or returned
from it. -/
structure Tracked (A : Finset Addr) (x : Calls) : Prop where
  somewhere : ∀ a ∈ A, a ∈ x.due ∨ (∃ q, q.isBin = false ∧ x.base.store.Linked q a) ∨
    ∃ t, .called t a ∈ x.log
  inCall : ∀ t a, .called t a ∈ x.log →
    (∃ r, .returned t a none r ∈ x.log) ∨ outermost (x.active t) = some a

theorem Start.tracked (h : Start A x) : Tracked A x where
  somewhere a ha := (h.pending a ha).imp And.left fun hq => Or.inl hq.2
  inCall t a hc := by
    rw [h.log] at hc
    cases hc

/-- What a statement of a thread leaves as it is; the outermost call stays until it returns. -/
structure Advances (x : Calls) (t : Tid) (x' : Calls) : Prop where
  due : x'.due = x.due
  others : ∀ t' ≠ t, x'.active t' = x.active t'
  kept : ∀ e ∈ x.log, e ∈ x'.log
  called : ∀ t' a, .called t' a ∈ x'.log → .called t' a ∈ x.log
  outermost : outermost (x'.active t) = outermost (x.active t) ∨
    ∃ a r, outermost (x.active t) = some a ∧ .returned t a none r ∈ x'.log

theorem advances_goto {o : Option Activation} (ho : outermost o = outermost (x.active t)) :
    Advances x t (x.goto t o) where
  due := rfl
  others t' ht' := Function.update_of_ne ht' ..
  kept e he := he
  called t' a hc := hc
  outermost := by
    left
    rw [goto_active_self, ho]

theorem advances_event {o : Option Activation} {e : Countdown.Event Addr Tid}
    (hdue : x'.due = x.due) (hactive : x'.active = Function.update x.active t o)
    (hlog : x'.log = e :: x.log) (he : ∀ t a, e ≠ .called t a)
    (ho : outermost o = outermost (x.active t) ∨
      ∃ a r, outermost (x.active t) = some a ∧ e = .returned t a none r) : Advances x t x' where
  due := hdue
  others t' ht' := by rw [hactive, Function.update_of_ne ht']
  kept e' he' := by
    rw [hlog]
    exact List.mem_cons_of_mem _ he'
  called t' a hc := by
    rw [hlog] at hc
    exact (List.mem_cons.mp hc).resolve_left (Ne.symm (he t' a))
  outermost := by
    rw [hactive, Function.update_self, hlog]
    refine ho.imp_right ?_
    rintro ⟨a, r, ha, rfl⟩
    exact ⟨a, r, ha, List.mem_cons_self⟩

theorem jobCompleted_advances (hx : x.active t = some act) :
    Advances x t (jobCompleted x t act) := by
  obtain ⟨point, job, callers⟩ := act
  have hout : outermost (x.active t) = (job :: callers).getLast? := by rw [hx, outermost]
  cases point with
  | fetchSub => exact advances_event rfl rfl rfl (by simp) (Or.inl hout.symm)
  | test remaining => exact advances_goto hout.symm
  | ascend =>
      simp only [jobCompleted]
      split
      · exact advances_goto (List.getLast?_cons_cons.trans hout.symm)
      · exact advances_goto hout.symm
  | recycle => exact advances_event rfl rfl rfl (by simp) (Or.inl hout.symm)
  | ret result =>
      refine advances_event rfl rfl rfl (by simp) ?_
      cases callers with
      | nil => exact Or.inr ⟨job, result, hout, rfl⟩
      | cons child callers => exact Or.inl (hout.trans List.getLast?_cons_cons).symm

/-- No statement takes a job from a queue. -/
theorem jobCompleted_linked {q : QueueId} {b : Addr} (hF : Forest parent A)
    (hI : Invariant parent A x) (hx : x.active t = some act) (hl : x.base.store.Linked q b) :
    (jobCompleted x t act).base.store.Linked q b := by
  obtain ⟨point, job, callers⟩ := act
  cases point with
  | fetchSub | test | ret => exact hl
  | ascend =>
      simp only [jobCompleted]
      split <;> exact hl
  | recycle =>
      obtain ⟨bin, -, -, hlinked⟩ := hI.2.recycle_store hF hI.1 hx
      exact hlinked.mpr (Or.inl hl)

theorem Tracked.next (hF : Forest parent A) (hI : Invariant parent A x) (h : Tracked A x)
    (hx : x.active t = some act) : Tracked A (jobCompleted x t act) := by
  have hadv := jobCompleted_advances hx
  constructor
  case somewhere =>
    intro a ha
    rw [hadv.due]
    rcases h.somewhere a ha with hd | ⟨q, hq, hl⟩ | ⟨t', hc⟩
    · exact Or.inl hd
    · exact Or.inr (Or.inl ⟨q, hq, jobCompleted_linked hF hI hx hl⟩)
    · exact Or.inr (Or.inr ⟨t', hadv.kept _ hc⟩)
  case inCall =>
    intro t' a hc
    rcases h.inCall t' a (hadv.called t' a hc) with ⟨r, hr⟩ | hout
    · exact Or.inl ⟨r, hadv.kept _ hr⟩
    · by_cases ht' : t' = t
      · subst ht'
        rcases hadv.outermost with hsame | ⟨b, r, hb, hr⟩
        · exact Or.inr (hsame.trans hout)
        · obtain rfl : b = a := Option.some.inj (hb.symm.trans hout)
          exact Or.inl ⟨r, hr⟩
      · rw [hadv.others t' ht']
        exact Or.inr hout

theorem Tracked.step (hF : Forest parent A) (hI : Invariant parent A x) (h : Tracked A x)
    (hs : Cascade.step x a = some x') : Tracked A x' := by
  cases a with
  | next t =>
      obtain ⟨act, hx, rfl⟩ := Option.map_eq_some_iff.mp hs
      exact h.next hF hI hx
  | run q =>
      obtain ⟨hq, job, store, hpop, rfl⟩ := step_run hs
      obtain ⟨-, -, hlinked⟩ := hI.2.wellFormed.pop_some hpop
      refine ⟨fun a ha => ?_, h.inCall⟩
      rcases h.somewhere a ha with hd | ⟨q', hq', hl⟩ | hc
      · exact Or.inl (List.mem_cons_of_mem _ hd)
      · by_cases haj : a = job
        · exact Or.inl (haj ▸ List.mem_cons_self)
        · exact Or.inr (Or.inl ⟨q', hq', hlinked.mpr ⟨hl, haj⟩⟩)
      · exact Or.inr (Or.inr hc)
  | call t job =>
      obtain ⟨hidle, hdue, rfl⟩ := step_call hs
      constructor
      case somewhere =>
        intro a ha
        by_cases haj : a = job
        · exact Or.inr (Or.inr ⟨t, haj ▸ List.mem_cons_self⟩)
        · rcases h.somewhere a ha with hd | hq | ⟨t', hc⟩
          · exact Or.inl ((List.mem_erase_of_ne haj).mpr hd)
          · exact Or.inr (Or.inl hq)
          · exact Or.inr (Or.inr ⟨t', List.mem_cons_of_mem _ hc⟩)
      case inCall =>
        intro t' a hc
        show (∃ r, .returned t' a none r ∈ .called t job :: x.log) ∨
          Cascade.outermost (Function.update x.active t _ t') = some a
        have hold : .called t' a ∈ x.log → (∃ r, .returned t' a none r ∈ .called t job :: x.log) ∨
            Cascade.outermost (Function.update x.active t (some ⟨.fetchSub, job, []⟩) t') =
              some a := by
          intro hc
          rcases h.inCall t' a hc with ⟨r, hr⟩ | hout
          · exact Or.inl ⟨r, List.mem_cons_of_mem _ hr⟩
          · -- a thread that is in a call makes no other one
            have hne : t' ≠ t := by
              rintro rfl
              rw [hidle] at hout
              cases hout
            rw [Function.update_of_ne hne]
            exact Or.inr hout
        rcases List.mem_cons.mp hc with heq | hc
        · obtain ⟨rfl, rfl⟩ := Countdown.Event.called.inj heq
          rw [Function.update_self]
          exact Or.inr rfl
        · exact hold hc

/-- **Nothing is left to do** where no step is possible: all calls were made, and returned. -/
theorem Tracked.returned (hI : Invariant parent A x) (h : Tracked A x)
    (hstuck : ∀ a, Cascade.step x a = none) : ∀ a ∈ A, ∃ t r, .returned t a none r ∈ x.log := by
  have hidle : ∀ t, x.active t = none := fun t => Option.map_eq_none_iff.mp (hstuck (.next t))
  intro a ha
  rcases h.somewhere a ha with hd | ⟨q, hq, hl⟩ | ⟨t, hc⟩
  · -- any idle thread could make the call
    have hcall := hstuck (.call (.client 0) a)
    rw [Cascade.step, if_pos ⟨hidle _, hd⟩] at hcall
    cases hcall
  · have hrun := hstuck (.run q)
    cases hpop : JobQueue.pop x.base.store q with
    | mk o store =>
        cases o with
        | none => exact absurd hl ((hI.2.wellFormed.pop_none hpop).2 a)
        | some job => simp [Cascade.step, hq, hpop] at hrun
  · rcases h.inCall t a hc with ⟨r, hr⟩ | hout
    · exact ⟨t, r, hr⟩
    · rw [hidle t] at hout
      cases hout

end Return

/-! ## The runs end

A decrement pays for the statements that follow it: the test, the call for the parent, `recycle`
and the return. -/

section Potential

variable {parent : Addr → Option Addr} {A : Finset Addr} {T : Finset Tid} {x₀ x x' : Calls}
  {t : Tid} {act : Activation} {tr : List (Calls × Action)}

/-- The statements of a call after the point, of those that the last decrement pays for. -/
def Point.cost : Point → Nat
  | .fetchSub => 0
  | .test _ => 4
  | .ascend => 3
  | .recycle => 2
  | .ret _ => 1

/-- A caller has to recycle its job, and to return. -/
def cost : Option Activation → Nat
  | none => 0
  | some act => act.point.cost + 2 * act.callers.length

open Classical in
/-- A job is to be run, and to be called for. -/
noncomputable def pending (x : Calls) (a : Addr) : Nat :=
  if ∃ t, .called t a ∈ x.log then 0 else if a ∈ x.due then 1 else 2

/-- What is left to do; only the threads of `T` are in calls. -/
noncomputable def potential (A : Finset Addr) (T : Finset Tid) (x : Calls) : Nat :=
  ∑ a ∈ A, (5 * (x.base.jobs a).numChildren + pending x a) + ∑ t ∈ T, cost (x.active t)

/-- A sum in which one term changes. -/
theorem sum_change {ι : Type} [DecidableEq ι] {S : Finset ι} {f g : ι → Nat} {i : ι} (hi : i ∈ S)
    (h : ∀ j ≠ i, f j = g j) : ∑ j ∈ S, f j + g i = ∑ j ∈ S, g j + f i := by
  have hrest : ∑ j ∈ S.erase i, f j = ∑ j ∈ S.erase i, g j :=
    Finset.sum_congr rfl fun j hj => h j (Finset.ne_of_mem_erase hj)
  rw [← Finset.add_sum_erase S f hi, ← Finset.add_sum_erase S g hi, hrest]
  omega

theorem pending_of_called {a : Addr} (h : .called t a ∈ x.log) : pending x a = 0 :=
  if_pos ⟨t, h⟩

theorem pending_of_not_called {a : Addr} (h : ∀ t, .called t a ∉ x.log) :
    pending x a = if a ∈ x.due then 1 else 2 := by
  rw [pending, if_neg (not_exists.mpr h)]

theorem Advances.pending_eq (h : Advances x t x') (a : Addr) : pending x' a = pending x a := by
  by_cases hc : ∃ t', .called t' a ∈ x.log
  · obtain ⟨t', hc⟩ := hc
    rw [pending_of_called hc, pending_of_called (h.kept _ hc)]
  · have hnot : ∀ t', .called t' a ∉ x.log := not_exists.mp hc
    rw [pending_of_not_called hnot, pending_of_not_called fun t' hc => hnot t' (h.called t' a hc),
      h.due]

/-- What a statement other than the decrement takes off the cost of its thread. -/
theorem jobCompleted_cost (hp : act.point ≠ .fetchSub) :
    (jobCompleted x t act).base.jobs = x.base.jobs ∧
      cost ((jobCompleted x t act).active t) < cost (some act) := by
  obtain ⟨point, job, callers⟩ := act
  cases point with
  | fetchSub => exact absurd rfl hp
  | test remaining =>
      refine ⟨rfl, ?_⟩
      have hactive : (jobCompleted x t ⟨.test remaining, job, callers⟩).active t =
          some ⟨if remaining ≤ 1 then .ascend else .ret false, job, callers⟩ := goto_active_self _
      rw [hactive]
      by_cases hle : remaining ≤ 1
      · simp [cost, hle, Point.cost]
      · simp [cost, hle, Point.cost]
  | ascend =>
      simp only [jobCompleted]
      split
      · refine ⟨rfl, ?_⟩
        rw [goto_active_self]
        simp only [cost, Point.cost, List.length_cons]
        omega
      · refine ⟨rfl, ?_⟩
        rw [goto_active_self]
        simp [cost, Point.cost]
  | recycle =>
      obtain ⟨q, -, hrec⟩ := recycle_eq x.base t job
      refine ⟨?_, ?_⟩
      · show (JobSystem.recycle x.base t job).jobs = _
        rw [hrec]
        rfl
      · have hactive : (jobCompleted x t ⟨.recycle, job, callers⟩).active t =
            some ⟨.ret true, job, callers⟩ := goto_active_self _
        rw [hactive]
        simp [cost, Point.cost]
  | ret result =>
      refine ⟨rfl, ?_⟩
      have hactive : (jobCompleted x t ⟨.ret result, job, callers⟩).active t =
          returnTo callers := goto_active_self _
      rw [hactive]
      cases callers with
      | nil => simp [returnTo, cost, Point.cost]
      | cons child callers =>
          simp only [returnTo, cost, Point.cost, List.length_cons]
          omega

/-- **A statement of a call** lowers what is left to do. -/
theorem potential_next (hF : Forest parent A)
    (hsmall : ∀ a ∈ A, (children parent A a).card + 1 < 2 ^ 32) (h : Sound parent A x)
    (ht : t ∈ T) (hx : x.active t = some act) :
    potential A T (jobCompleted x t act) < potential A T x := by
  have hadv := jobCompleted_advances hx
  have hcosts : ∑ u ∈ T, cost ((jobCompleted x t act).active u) + cost (some act) =
      ∑ u ∈ T, cost (x.active u) + cost ((jobCompleted x t act).active t) := by
    rw [← hx]
    exact sum_change ht fun u hu => congrArg cost (hadv.others u hu)
  unfold potential
  simp only [hadv.pending_eq]
  by_cases hp : act.point = .fetchSub
  · obtain ⟨point, job, callers⟩ := act
    obtain rfl : point = .fetchSub := hp
    obtain ⟨hjob, hmem⟩ := h.outstanding_mem hF hx
    have hpos : 0 < (x.base.jobs job).numChildren := by
      rw [h.counter job hjob]
      exact Finset.card_pos.mpr ⟨_, hmem⟩
    have hle : (x.base.jobs job).numChildren ≤ 2 ^ 32 := by
      have hcard := card_outstanding_le (A := A) parent x.log job
      have hlt := hsmall job hjob
      rw [h.counter job hjob]
      omega
    have hself : ((jobCompleted x t ⟨.fetchSub, job, callers⟩).base.jobs job).numChildren =
        (x.base.jobs job).numChildren - 1 := by
      show (Function.update x.base.jobs job _ job).numChildren = _
      rw [Function.update_self]
      exact pred32_of_pos hpos hle
    have hother : ∀ a ≠ job, ((jobCompleted x t ⟨.fetchSub, job, callers⟩).base.jobs a) =
        x.base.jobs a := fun a ha => Function.update_of_ne ha ..
    have hcounters := sum_change
      (f := fun a => 5 * ((jobCompleted x t ⟨.fetchSub, job, callers⟩).base.jobs a).numChildren +
        pending x a)
      (g := fun a => 5 * (x.base.jobs a).numChildren + pending x a) hjob
      (fun a ha => by rw [hother a ha])
    have hactive : (jobCompleted x t ⟨.fetchSub, job, callers⟩).active t =
        some ⟨.test (x.base.jobs job).numChildren, job, callers⟩ := goto_active_self _
    have hfrom : cost (some ⟨.fetchSub, job, callers⟩) = 2 * callers.length := Nat.zero_add _
    have hto : cost (some ⟨.test (x.base.jobs job).numChildren, job, callers⟩) =
        4 + 2 * callers.length := rfl
    rw [hactive, hfrom, hto] at hcosts
    simp only [hself] at hcounters
    omega
  · obtain ⟨hjobs, hlt⟩ := jobCompleted_cost (x := x) (t := t) hp
    rw [hjobs]
    omega

/-- A job is not pending as it was, and the counters and the calls are what they were. -/
theorem potential_lt {T' : Finset Tid} {job : Addr} (hjobs : x'.base.jobs = x.base.jobs)
    (hcosts : ∑ t ∈ T', cost (x'.active t) = ∑ t ∈ T, cost (x.active t)) (hjob : job ∈ A)
    (hle : ∀ a ∈ A, pending x' a ≤ pending x a) (hlt : pending x' job < pending x job) :
    potential A T' x' < potential A T x := by
  unfold potential
  rw [hjobs, hcosts]
  exact Nat.add_lt_add_right (Finset.sum_lt_sum (fun a ha => Nat.add_le_add_left (hle a ha) _)
    ⟨job, hjob, Nat.add_lt_add_left hlt _⟩) _

/-- **Every step** lowers what is left to do. -/
theorem potential_step (hF : Forest parent A)
    (hsmall : ∀ a ∈ A, (children parent A a).card + 1 < 2 ^ 32) (hI : Invariant parent A x)
    (hT : ∀ t ∉ T, x.active t = none) {a : Action} (hs : Cascade.step x a = some x') :
    ∃ T', (∀ t ∉ T', x'.active t = none) ∧ potential A T' x' < potential A T x := by
  cases a with
  | next t =>
      obtain ⟨act, hx, rfl⟩ := Option.map_eq_some_iff.mp hs
      have ht : t ∈ T := by
        by_contra ht
        rw [hT t ht] at hx
        cases hx
      refine ⟨T, fun u hu => ?_, potential_next hF hsmall hI.1 ht hx⟩
      have hut : u ≠ t := fun heq => hu (heq ▸ ht)
      rw [(jobCompleted_advances hx).others u hut, hT u hu]
  | run q =>
      obtain ⟨hq, job, store, hpop, hx'⟩ := step_run hs
      obtain ⟨-, hl, -⟩ := hI.2.wellFormed.pop_some hpop
      obtain ⟨hjob, hdue, hnew⟩ := hI.2.queued q job hq hl
      have hlog : x'.log = x.log := by rw [hx']
      have hdue' : x'.due = job :: x.due := by rw [hx']
      have hactive : x'.active = x.active := by rw [hx']
      have hpending : ∀ a, (∀ t, .called t a ∉ x.log) →
          pending x' a = if a ∈ job :: x.due then 1 else 2 := by
        intro a ha
        rw [pending_of_not_called (hlog ▸ ha), hdue']
      refine ⟨T, hactive ▸ hT, potential_lt (by rw [hx']) (by rw [hactive]) hjob
        (fun a _ => ?_) ?_⟩
      · by_cases hc : ∃ t, .called t a ∈ x.log
        · obtain ⟨t, hc⟩ := hc
          rw [pending_of_called hc, pending_of_called (hlog ▸ hc)]
        · have hnot : ∀ t, .called t a ∉ x.log := not_exists.mp hc
          rw [hpending a hnot, pending_of_not_called hnot]
          by_cases ha : a ∈ x.due
          · rw [if_pos ha, if_pos (List.mem_cons_of_mem _ ha)]
          · rw [if_neg ha]
            split
            · exact Nat.le_succ 1
            · exact le_rfl
      · rw [hpending job hnew, pending_of_not_called hnew, if_neg hdue, if_pos List.mem_cons_self]
        exact Nat.lt_succ_self 1
  | call t job =>
      obtain ⟨hidle, hdue, hx'⟩ := step_call hs
      obtain ⟨hjob, hnew⟩ := hI.2.due job hdue
      have hlog : x'.log = .called t job :: x.log := by rw [hx']; rfl
      have hdue' : x'.due = x.due.erase job := by rw [hx']
      have hactive : x'.active = Function.update x.active t (some ⟨.fetchSub, job, []⟩) := by
        rw [hx']
        rfl
      -- neither the call nor its absence costs anything
      have hcost : ∀ u, cost (x'.active u) = cost (x.active u) := by
        intro u
        by_cases hu : u = t
        · rw [hactive, hu, Function.update_self, hidle]
          rfl
        · rw [hactive, Function.update_of_ne hu]
      have hcosts : ∑ u ∈ insert t T, cost (x'.active u) = ∑ u ∈ T, cost (x.active u) := by
        rw [Finset.sum_congr rfl fun u _ => hcost u]
        exact Finset.sum_insert_of_eq_zero_if_notMem fun ht => by rw [hT t ht]; rfl
      refine ⟨insert t T, fun u hu => ?_, potential_lt (by rw [hx']; rfl) hcosts hjob
        (fun a _ => ?_) ?_⟩
      · obtain ⟨hut, hu⟩ := not_or.mp (Finset.mem_insert.not.mp hu)
        rw [hactive, Function.update_of_ne hut, hT u hu]
      · by_cases hc : ∃ t', .called t' a ∈ x'.log
        · obtain ⟨t', hc⟩ := hc
          rw [pending_of_called hc]
          exact Nat.zero_le _
        · have hnot' : ∀ t', .called t' a ∉ x'.log := not_exists.mp hc
          have hnot : ∀ t', .called t' a ∉ x.log := fun t' hc =>
            hnot' t' (hlog ▸ List.mem_cons_of_mem _ hc)
          have hne : a ≠ job := by
            rintro rfl
            exact hnot' t (hlog ▸ List.mem_cons_self)
          rw [pending_of_not_called hnot', pending_of_not_called hnot, hdue']
          simp only [List.mem_erase_of_ne hne, le_refl]
      · have hcalled : .called t job ∈ x'.log := hlog ▸ List.mem_cons_self
        rw [pending_of_called hcalled, pending_of_not_called hnew, if_pos hdue]
        exact Nat.zero_lt_one

/-- The invariant goes with the run, and each step is paid for. -/
theorem Start.length_le (h : Start A x₀) (hrun : Transition.Run Cascade.step x₀ tr x) :
    tr.length ≤ ∑ a ∈ A, (5 * (x₀.base.jobs a).numChildren + 2) := by
  have hsmall := h.children_small
  obtain ⟨n, -, hle⟩ := hrun.countP_add_le (p := fun _ => true) (C := fun _ _ => True)
    (M := fun x n => Invariant (fun a => (x₀.base.jobs a).parent) A x ∧
      ∃ T : Finset Tid, (∀ t ∉ T, x.active t = none) ∧ potential A T x ≤ n)
    (m := potential A ∅ x₀) ⟨h.invariant, ∅, fun t _ => h.idle t, le_rfl⟩
    (fun {x n a x'} hM _ hs => by
      obtain ⟨hI, T, hT, hn⟩ := hM
      obtain ⟨T', hT', hlt⟩ := potential_step h.forest hsmall hI hT hs
      exact ⟨potential A T' x', ⟨hI.step h.forest hsmall hs, T', hT', le_rfl⟩, by simp; omega⟩)
    (fun _ _ => trivial)
  have hstart : potential A ∅ x₀ ≤ ∑ a ∈ A, (5 * (x₀.base.jobs a).numChildren + 2) := by
    unfold potential
    rw [Finset.sum_empty, Nat.add_zero]
    refine Finset.sum_le_sum fun a _ => Nat.add_le_add_left ?_ _
    rw [pending_of_not_called (by simp [h.log])]
    split
    · exact Nat.le_succ 1
    · exact le_rfl
  rw [List.countP_true] at hle
  omega

end Potential

section Cascade

variable {A : Finset Addr} {x₀ x x' : Calls} {tr : List (Calls × Action)}

theorem Start.run_tracked (h : Start A x₀) (hrun : Transition.Run Cascade.step x₀ tr x) :
    Tracked A x :=
  (hrun.invariant (I := fun x => Invariant (fun a => (x₀.base.jobs a).parent) A x ∧ Tracked A x)
    (C := fun _ _ => True) ⟨h.invariant, h.tracked⟩
    (fun hI _ hs => ⟨hI.1.step h.forest h.children_small hs, hI.2.step h.forest hI.1 hs⟩)
    (fun _ _ => trivial)).2

/-- **The calls of `job_completed` for a forest**, by any threads and in any order. No counter
goes below zero. A job is recycled at most once, by the call that took its counter from one to
zero, when the counters of its children are zero. A call returns true iff it is that one. A thread
in a call always has a next statement, there are no more steps than the counters of the jobs pay
for, and when no step is left all calls have returned. When all calls returned, all counters are
zero, and every job was recycled, once, and is in one bin. -/
theorem job_completed_correct (h₀ : Start A x₀) (hrun : Transition.Run Cascade.step x₀ tr x) :
    (∀ t job callers, x.active t = some ⟨.fetchSub, job, callers⟩ →
      0 < (x.base.jobs job).numChildren) ∧
    (∀ t a c r, .fetchSub t a c r ∈ x.log → 0 < r) ∧
    (∀ a, x.log.countP (Event.releases a) ≤ 1) ∧
    (∀ t a c, .released t a c ∈ x.log → .fetchSub t a c 1 ∈ x.log) ∧
    (∀ t t' a c c', .fetchSub t a c 1 ∈ x.log → .fetchSub t' a c' 1 ∈ x.log → t = t' ∧ c = c') ∧
    (∀ t job callers, x.active t = some ⟨.recycle, job, callers⟩ →
      (x.base.jobs job).numChildren = 0 ∧
        ∀ child ∈ A, (x.base.jobs child).parent = some job →
          (x.base.jobs child).numChildren = 0) ∧
    (∀ t a c r, .returned t a c r ∈ x.log →
      (r = true ↔ .fetchSub t a c 1 ∈ x.log) ∧ (r = true ↔ .released t a c ∈ x.log)) ∧
    (∀ t, x.active t ≠ none → (Cascade.step x (.next t)).isSome) ∧
    tr.length ≤ ∑ a ∈ A, (5 * (x₀.base.jobs a).numChildren + 2) ∧
    ((∀ a, Cascade.step x a = none) → ∀ a ∈ A, ∃ t r, .returned t a none r ∈ x.log) ∧
    ((∀ a ∈ A, ∃ t r, .returned t a none r ∈ x.log) →
      ∀ a ∈ A, (x.base.jobs a).numChildren = 0 ∧ x.log.countP (Event.releases a) = 1 ∧
        (∃! q, x.base.store.Linked q a) ∧ ∀ q, x.base.store.Linked q a → q.isBin = true) := by
  have hF := h₀.forest
  have hI := h₀.run hrun
  have hsound := hI.1
  have hplaced := hI.2
  have hproper := hsound.proper
  refine ⟨fun t job callers hx => ?_, fun t a c r hf => hproper.remaining_pos hF hf,
    hproper.countP_releases_le, fun t a c hr => (hproper.last_of_released hr).1,
    fun t t' a c c' hf hf' => hproper.last_unique hF hf hf', fun t job callers hx => ?_,
    fun t a c r hr => hproper.returned_iff hr, fun t ht => ?_, h₀.length_le hrun,
    (h₀.run_tracked hrun).returned hI, fun hret a ha => ?_⟩
  · obtain ⟨hjob, hmem⟩ := hsound.outstanding_mem hF hx
    rw [hsound.counter job hjob]
    exact Finset.card_pos.mpr ⟨_, hmem⟩
  · obtain ⟨-, hf, -, -⟩ := hsound.active t _ hx
    have hempty := hproper.empty_of_last hF hf
    refine ⟨?_, fun child hchild hp => ?_⟩
    · rw [hsound.counter job (hproper.fetchSub_mem hF hf), hempty, Finset.card_empty]
    · rw [hsound.parents] at hp
      have hzero := hproper.empty_of_child hF hempty (mem_children.mpr ⟨hchild, hp⟩)
      rw [hsound.counter child hchild, hzero, Finset.card_empty]
  · obtain ⟨act, hact⟩ := Option.ne_none_iff_exists'.mp ht
    rw [step_next hact]
    rfl
  · obtain ⟨hzero, hrel⟩ := hsound.finished hF hret a ha
    obtain ⟨q, hq, hl⟩ := hplaced.released a hrel
    have hunique : ∀ q', x.base.store.Linked q' a → q' = q := fun q' hl' =>
      hplaced.wellFormed.linked_unique hl' hl
    have hle := hproper.countP_releases_le a
    have hpos := hrel.countP_pos
    exact ⟨hzero, by omega, ⟨q, hl, hunique⟩, fun q' hl' => hunique q' hl' ▸ hq⟩

/-- Three generations: the job `0` has the child `1`, and that one has two children, which were run.
The other two are still in a queue. -/
def family : Calls where
  base := { init 2 with
    jobs := fun
      | 0 => { numChildren := 2 }
      | 1 => { numChildren := 3, parent := some 0 }
      | _ => { parent := some 1 }
    store := JobQueue.push (JobQueue.push (init 2).store (.globalQueue 0) 0) (.globalQueue 0) 1 }
  due := [2, 3]
  active := fun _ => none
  log := []

theorem family_start : Start {0, 1, 2, 3} family := by
  have hempty : (init 2).store.Holds fun _ => [] :=
    ⟨fun _ => IntrusiveList.represents_nil, fun _ => rfl, fun ha => absurd ha List.not_mem_nil⟩
  have hout : ∀ q a, ¬ (init 2).store.Linked q a := fun q a hl =>
    absurd (hempty.linked_iff.mp hl) List.not_mem_nil
  obtain ⟨hwf₀, hlinked₀⟩ := Store.WellFormed.push (q := .globalQueue 0) (a := 0) ⟨_, hempty⟩
    fun q => hout q 0
  obtain ⟨hwf, hlinked⟩ := hwf₀.push (q := .globalQueue 0) (a := 1) fun q hl => by
    rcases hlinked₀.mp hl with hl | ⟨-, h⟩
    · exact hout q 1 hl
    · cases h
  have hqueue : ∀ q a, family.base.store.Linked q a ↔ q = .globalQueue 0 ∧ (a = 0 ∨ a = 1) := by
    intro q a
    refine hlinked.trans ?_
    rw [hlinked₀]
    have hno := hout q a
    tauto
  -- the parent of a job is an older one
  have hup : ∀ a b, Up (fun a => (family.base.jobs a).parent) a b → b < a := by
    intro a b h
    match a with
    | 0 => cases h
    | 1 =>
        obtain rfl := Option.some.inj h
        exact Nat.zero_lt_one
    | a + 2 =>
        obtain rfl := Option.some.inj h
        exact Nat.succ_lt_succ (Nat.succ_pos a)
  have htrans : ∀ a b, Relation.TransGen (Up fun a => (family.base.jobs a).parent) a b →
      b < a := by
    intro a b h
    induction h with
    | single h => exact hup a _ h
    | tail _ h ih => exact (hup _ _ h).trans ih
  refine ⟨⟨by decide, fun a _ hcycle => Nat.lt_irrefl a (htrans a a hcycle)⟩, by decide,
    by decide, hwf, by decide, fun a ha => ?_, by decide, fun q a _ hl => ?_, fun _ => rfl, rfl⟩
  · have hcases : a = 0 ∨ a = 1 ∨ a = 2 ∨ a = 3 := by simpa using ha
    rcases hcases with rfl | rfl | rfl | rfl
    · exact Or.inr ⟨by decide, .globalQueue 0, rfl, (hqueue _ 0).mpr ⟨rfl, Or.inl rfl⟩⟩
    · exact Or.inr ⟨by decide, .globalQueue 0, rfl, (hqueue _ 1).mpr ⟨rfl, Or.inr rfl⟩⟩
    · exact Or.inl ⟨by decide, fun q hl => absurd ((hqueue q 2).mp hl).2 (by decide)⟩
    · exact Or.inl ⟨by decide, fun q hl => absurd ((hqueue q 3).mp hl).2 (by decide)⟩
  · rcases ((hqueue q a).mp hl).2 with rfl | rfl <;> decide

/-- The two workers meet at the job `1`: the one that comes last goes on to the job `0`, and recycles
both. -/
theorem job_completed_correct_family : ∃ tr x, Transition.Run Cascade.step family tr x ∧
    .released (.worker 0) 1 (some 2) ∈ x.log ∧ .released (.worker 0) 0 (some 1) ∈ x.log ∧
    tr.length ≤ 43 ∧
    ∀ a ∈ ({0, 1, 2, 3} : Finset Addr), (x.base.jobs a).numChildren = 0 ∧
      (∃! q, x.base.store.Linked q a) ∧ ∀ q, x.base.store.Linked q a → q.isBin = true := by
  have hexec : ((Transition.exec Cascade.step (fun _ _ => True) family
      ([.run (.globalQueue 0), .call (.worker 1) 0, .next (.worker 1), .next (.worker 1),
        .next (.worker 1), .run (.globalQueue 0), .call (.worker 1) 1, .next (.worker 1),
        .next (.worker 1), .next (.worker 1), .call (.worker 0) 2, .call (.worker 1) 3,
        .next (.worker 1), .next (.worker 0), .next (.worker 1), .next (.worker 0),
        .next (.worker 0), .next (.worker 1), .next (.worker 1), .next (.worker 0),
        .next (.worker 1), .next (.worker 1), .next (.worker 1), .next (.worker 1)] ++
        List.replicate 11 (Action.next (.worker 0)))).any fun x =>
      decide (.returned (.worker 1) 0 none false ∈ x.log ∧
        .returned (.worker 1) 1 none false ∈ x.log ∧ .returned (.worker 0) 2 none true ∈ x.log ∧
        .returned (.worker 1) 3 none true ∈ x.log ∧ .released (.worker 0) 1 (some 2) ∈ x.log ∧
        .released (.worker 0) 0 (some 1) ∈ x.log)) = true := by decide
  obtain ⟨tr, x, hrun, -, -, hx⟩ := Transition.exists_run_of_exec hexec
  obtain ⟨h0, h1, h2, h3, hchild, hroot⟩ := of_decide_eq_true hx
  obtain ⟨-, -, -, -, -, -, -, -, hlength, -, hend⟩ := job_completed_correct family_start hrun
  have hall : ∀ a ∈ ({0, 1, 2, 3} : Finset Addr), ∃ t r, .returned t a none r ∈ x.log := by
    intro a ha
    have hcases : a = 0 ∨ a = 1 ∨ a = 2 ∨ a = 3 := by simpa using ha
    rcases hcases with rfl | rfl | rfl | rfl
    · exact ⟨_, _, h0⟩
    · exact ⟨_, _, h1⟩
    · exact ⟨_, _, h2⟩
    · exact ⟨_, _, h3⟩
  refine ⟨tr, x, hrun, hchild, hroot, hlength, fun a ha => ?_⟩
  obtain ⟨hzero, -, hone, hbin⟩ := hend hall a ha
  exact ⟨hzero, hone, hbin⟩

end Cascade

end Bop.JobSystem.Cascade
