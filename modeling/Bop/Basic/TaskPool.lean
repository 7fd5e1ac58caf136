import Bop.Basic.Transition

set_option autoImplicit false

/-! # A pool of tasks

What a thread pool is for, without any thread: tasks are submitted, executors start them and
finish them. An executor works on one task at a time, and a task is given to one executor, once,
after it was submitted. There is no order between the tasks.

* `run_life` says what the labels of a run are for one task: a part of its life from the
  submission on.
* `run_exclusive` says that an executor has one task at most.
-/

namespace TaskPool

/-- How far a task is. -/
inductive Status (ι : Type*)
  | unknown
  | waiting
  | running (i : ι)
  | executed (i : ι)
  deriving DecidableEq

/-- What can be seen of a pool. -/
inductive Label (ω ι : Type*)
  | submit (w : ω)
  | start (w : ω) (i : ι)
  | finish (w : ω) (i : ι)
  deriving DecidableEq

variable {ω ι : Type*}

def Label.task : Label ω ι → ω
  | submit w | start w _ | finish w _ => w

/-- What has been seen of a task, newest first. -/
def Status.life (w : ω) : Status ι → List (Label ω ι)
  | unknown => []
  | waiting => [.submit w]
  | running i => [.start w i, .submit w]
  | executed i => [.finish w i, .start w i, .submit w]

variable [DecidableEq ω] [DecidableEq ι]

open Classical in
/-- One step of the pool. -/
noncomputable def step (p : ω → Status ι) : Label ω ι → Option (ω → Status ι)
  | .submit w => if p w = .unknown then some (Function.update p w .waiting) else none
  | .start w i =>
      if p w = .waiting ∧ ∀ v, p v ≠ .running i then some (Function.update p w (.running i))
      else none
  | .finish w i =>
      if p w = .running i then some (Function.update p w (.executed i)) else none

variable {p p' : ω → Status ι} {l : Label ω ι} {v w : ω} {i : ι}
variable {tr : List ((ω → Status ι) × Label ω ι)}

/-- **A step** takes one task to the next status. -/
theorem step_cases (hs : step p l = some p') :
    ∃ w k, p' = Function.update p w k ∧ l.task = w ∧ k.life w = l :: (p w).life w ∧
      ∀ i, k = .running i → ∀ v, p v ≠ .running i := by
  cases l with
  | submit w =>
      obtain ⟨h, heq⟩ := Option.ite_none_right_eq_some.mp hs
      cases heq
      exact ⟨w, .waiting, rfl, rfl, by simp [h, Status.life], by simp⟩
  | start w i =>
      obtain ⟨⟨h, hfree⟩, heq⟩ := Option.ite_none_right_eq_some.mp hs
      cases heq
      refine ⟨w, .running i, rfl, rfl, by simp [h, Status.life], fun j hj => ?_⟩
      rwa [← Status.running.inj hj]
  | finish w i =>
      obtain ⟨h, heq⟩ := Option.ite_none_right_eq_some.mp hs
      cases heq
      exact ⟨w, .executed i, rfl, rfl, by simp [h, Status.life], by simp⟩

/-- **The life of a task**: it is submitted, started and finished, each once and in this order. -/
theorem run_life (h : Transition.Run step (fun _ : ω => (.unknown : Status ι)) tr p) (w : ω) :
    (tr.map Prod.snd).filter (fun l => l.task = w) = (p w).life w := by
  induction h with
  | nil => rfl
  | @snoc tr p p' l hrun hs ih =>
      obtain ⟨v, k, rfl, hv, hlife, -⟩ := step_cases hs
      rw [List.map_cons]
      by_cases hvw : v = w
      · subst hvw
        rw [List.filter_cons_of_pos (by simp [hv]), ih, Function.update_self, hlife]
      · rw [List.filter_cons_of_neg (by simp [hv, hvw]), ih,
          Function.update_of_ne (Ne.symm hvw)]

/-- **An executor has one task** at most. -/
theorem run_exclusive (h : Transition.Run step (fun _ : ω => (.unknown : Status ι)) tr p)
    (hv : p v = .running i) (hw : p w = .running i) : v = w := by
  suffices hall : ∀ v w i, p v = .running i → p w = .running i → v = w from hall v w i hv hw
  refine h.invariant (I := fun p => ∀ v w i, p v = .running i → p w = .running i → v = w)
    (C := fun _ _ => True) (by simp) ?_ (fun _ _ => trivial)
  intro p l p' hI _ hs v w i hv hw
  obtain ⟨u, k, rfl, -, -, hfree⟩ := step_cases hs
  by_cases hvu : v = u
  · subst hvu
    rw [Function.update_self] at hv
    by_contra hvw
    rw [Function.update_of_ne (Ne.symm hvw)] at hw
    exact hfree i hv w hw
  · rw [Function.update_of_ne hvu] at hv
    by_cases hwu : w = u
    · subst hwu
      rw [Function.update_self] at hw
      exact absurd hv (hfree i hw v)
    · rw [Function.update_of_ne hwu] at hw
      exact hI v w i hv hw

end TaskPool
