import Bop.Basic.Behaviour

set_option autoImplicit false

/-! # Spinning

A thread that spins for a lock tries again and again to take it, and has no place in a queue: it
may always come too late. What fairness gives is that the lock is not free for ever while it
spins (`Behaviour.taken`): the threads that spin for a lock are not all blocked.
-/

namespace Transition

variable {σ α : Type*} {step : σ → α → Option σ} {s₀ : σ} {x : Nat → σ} {a : Nat → Option α}
variable {b : α} {I F : σ → Prop} {K : Nat}

/-- What is the case at one time and not at a later one ends at some time between them. -/
theorem exists_end {P : Nat → Prop} {j : Nat} (hK : P K) (hKj : K ≤ j) (hj : ¬ P j) :
    ∃ k ≥ K, P k ∧ ¬ P (k + 1) := by
  induction j, hKj using Nat.le_induction with
  | base => exact absurd hK hj
  | succ j hKj ih =>
      by_cases hP : P j
      · exact ⟨j, hKj, hP, hj⟩
      · exact ih hP

/-- The step that ends it. -/
theorem Behaviour.exists_step (h : Behaviour step s₀ x a) {k : Nat} (hI : I (x k))
    (hnot : ¬ I (x (k + 1))) : ∃ c, a k = some c ∧ step (x k) c = some (x (k + 1)) := by
  cases hak : a k with
  | none =>
      rw [h.idle hak] at hnot
      exact absurd hI hnot
  | some c => exact ⟨c, rfl, h.step_eq hak⟩

/-- **A lock that somebody spins for is taken again and again**, if it is free again and again.
`b` is the next action of a thread that spins from the time `K` on, and each time it is taken while
the lock is free, it brings the thread nearer to the attempt that takes the lock. -/
theorem Behaviour.taken (h : Behaviour step s₀ x a) (hb : Fair step x a b) (r : σ → Nat)
    (hfree : ∀ n, ∃ k ≥ n, F (x k)) (henabled : ∀ k ≥ K, (step (x k) b).isSome)
    (hstep : ∀ k ≥ K, ∀ c, a k = some c → step (x k) c = some (x (k + 1)) → F (x k) →
      ¬ F (x (k + 1)) ∨ (r (x (k + 1)) ≤ r (x k) ∧ (c = b → r (x (k + 1)) < r (x k)))) :
    ∀ n, ∃ k ≥ n, F (x k) ∧ ¬ F (x (k + 1)) := by
  intro n
  obtain ⟨j, hj, hfj⟩ := hfree (max K n)
  have hKj : K ≤ j := (le_max_left K n).trans hj
  obtain ⟨m, hm, htaken⟩ : ∃ m ≥ j, ¬ F (x m) := by
    refine h.reaches (I := F) (Q := fun s => ¬ F s) hb r hfj
      (fun k hk _ => henabled k (hKj.trans hk)) fun k hk c hc hs hf => ?_
    by_cases hf' : F (x (k + 1))
    · have hnear := hstep k (hKj.trans hk) c hc hs hf
      exact Or.inr ⟨hf', hnear.resolve_left (not_not_intro hf')⟩
    · exact Or.inl hf'
  obtain ⟨k, hk, hfk, hnot⟩ := exists_end (P := fun k => F (x k)) hfj hm htaken
  exact ⟨k, ((le_max_right K n).trans hj).trans hk, hfk, hnot⟩

end Transition
