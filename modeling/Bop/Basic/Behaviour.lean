import Bop.Basic.Transition
import Mathlib.Order.Nat

set_option autoImplicit false

/-! # Infinite runs

`Run` is about what has happened so far. What must happen at some time is a property of the
infinite runs: at each time an action is taken, or none. They are fair to an action if it is
taken sometime whenever it stays enabled.

* `Behaviour.stays` is the induction over the times.
* `Behaviour.settles` ends the steps of a kind by a measure that goes down with them, and never up.
* `Behaviour.reaches` leads to a goal by a fair action that brings the states nearer to it.
* `play` is a scheduler, so there are fair runs.
-/

namespace Transition

variable {σ α : Type*}

/-- What is the case after the action `o`, if one is taken. -/
def Moves (step : σ → α → Option σ) (s : σ) (o : Option α) (s' : σ) : Prop :=
  match o with
  | none => s' = s
  | some b => step s b = some s'

/-- An infinite run from `s₀`: the state at each time, and the action that is taken then. -/
structure Behaviour (step : σ → α → Option σ) (s₀ : σ) (x : Nat → σ) (a : Nat → Option α) :
    Prop where
  init : x 0 = s₀
  moves : ∀ k, Moves step (x k) (a k) (x (k + 1))

/-- **Weak fairness.** The action does not stay enabled for ever without being taken. -/
def Fair (step : σ → α → Option σ) (x : Nat → σ) (a : Nat → Option α) (b : α) : Prop :=
  ∀ k, (∀ j ≥ k, (step (x j) b).isSome) → ∃ j ≥ k, a j = some b

section

variable {step : σ → α → Option σ} {s₀ : σ} {x : Nat → σ} {a : Nat → Option α} {b : α}
variable {I Q : σ → Prop} {K : Nat}

theorem Behaviour.step_eq (h : Behaviour step s₀ x a) {k : Nat} (hk : a k = some b) :
    step (x k) b = some (x (k + 1)) := by
  have hmoves := h.moves k
  rwa [hk] at hmoves

theorem Behaviour.idle (h : Behaviour step s₀ x a) {k : Nat} (hk : a k = none) :
    x (k + 1) = x k := by
  have hmoves := h.moves k
  rwa [hk] at hmoves

/-- What each step keeps holds from some time on. -/
theorem Behaviour.stays (h : Behaviour step s₀ x a) (h₀ : I (x K))
    (hstep : ∀ k ≥ K, ∀ b, a k = some b → step (x k) b = some (x (k + 1)) → I (x k) →
      I (x (k + 1))) :
    ∀ k ≥ K, I (x k) := by
  intro k hk
  induction k, hk using Nat.le_induction with
  | base => exact h₀
  | succ k hk ih =>
      cases hak : a k with
      | none => rwa [h.idle hak]
      | some b => exact hstep k hk b hak (h.step_eq hak) ih

/-- **Invariants**, for the behaviours whose steps all meet a condition. -/
theorem Behaviour.invariant {C : σ → α → Prop} (h : Behaviour step s₀ x a) (h₀ : I s₀)
    (hstep : ∀ {s b s'}, I s → C s b → step s b = some s' → I s')
    (hC : ∀ k b, a k = some b → C (x k) b) (k : Nat) : I (x k) :=
  h.stays (K := 0) (h.init ▸ h₀)
    (fun k _ b hak hs hI => hstep hI (hC k b hak) hs) k (Nat.zero_le k)

/-- The states that a behaviour visits are those of runs. -/
theorem Behaviour.run (h : Behaviour step s₀ x a) (k : Nat) :
    ∃ tr, Run step s₀ tr (x k) ∧ ∀ p ∈ tr, ∃ j < k, p.1 = x j ∧ a j = some p.2 := by
  induction k with
  | zero => exact ⟨[], h.init ▸ .nil, by simp⟩
  | succ k ih =>
      obtain ⟨tr, hrun, htr⟩ := ih
      have hold : ∀ p ∈ tr, ∃ j < k + 1, p.1 = x j ∧ a j = some p.2 := by
        intro p hp
        obtain ⟨j, hj, hpj⟩ := htr p hp
        exact ⟨j, Nat.lt_succ_of_lt hj, hpj⟩
      cases hak : a k with
      | none => exact ⟨tr, (h.idle hak).symm ▸ hrun, hold⟩
      | some b =>
          refine ⟨(x k, b) :: tr, hrun.snoc (h.step_eq hak), fun p hp => ?_⟩
          rcases List.mem_cons.mp hp with rfl | hp
          · exact ⟨k, Nat.lt_succ_self k, rfl, hak⟩
          · exact hold p hp

/-- **A measure.** From some time on there are no steps of a kind that the measure goes down
with, if it never goes up. -/
theorem Behaviour.settles (h : Behaviour step s₀ x a) (μ : σ → Nat) (p : σ → α → Prop)
    (hstep : ∀ k ≥ K, ∀ b, a k = some b → step (x k) b = some (x (k + 1)) →
      μ (x (k + 1)) ≤ μ (x k) ∧ (p (x k) b → μ (x (k + 1)) < μ (x k))) :
    ∃ K' ≥ K, ∀ k ≥ K', ∀ b, a k = some b → ¬ p (x k) b := by
  -- by induction on the measure at the time `K`
  induction hm : μ (x K) using Nat.strong_induction_on generalizing K with
  | h m ih =>
      by_cases hex : ∃ k ≥ K, ∃ b, a k = some b ∧ p (x k) b
      · obtain ⟨k, hk, b, hak, hp⟩ := hex
        have hle : μ (x k) ≤ μ (x K) := by
          refine h.stays (I := fun s => μ s ≤ μ (x K)) le_rfl (fun j hj c hc hs hI => ?_) k hk
          exact (hstep j hj c hc hs).1.trans hI
        have hlt : μ (x (k + 1)) < m :=
          hm ▸ ((hstep k hk b hak (h.step_eq hak)).2 hp).trans_le hle
        obtain ⟨K', hK', hno⟩ := ih _ hlt (K := k + 1)
          (fun j hj => hstep j (by omega)) rfl
        exact ⟨K', by omega, hno⟩
      · refine ⟨K, le_rfl, fun k hk b hak hp => hex ⟨k, hk, b, hak, hp⟩⟩

/-- **A goal.** The action `b` is fair and stays enabled; each step keeps what is known and the
distance to the goal, and `b` makes it less, or the step reaches the goal. -/
theorem Behaviour.reaches (h : Behaviour step s₀ x a) (hb : Fair step x a b) (r : σ → Nat)
    (h₀ : I (x K)) (henabled : ∀ k ≥ K, I (x k) → (step (x k) b).isSome)
    (hstep : ∀ k ≥ K, ∀ c, a k = some c → step (x k) c = some (x (k + 1)) → I (x k) →
      Q (x (k + 1)) ∨
        (I (x (k + 1)) ∧ r (x (k + 1)) ≤ r (x k) ∧ (c = b → r (x (k + 1)) < r (x k)))) :
    ∃ k ≥ K, Q (x k) := by
  by_contra hno
  have hstep' : ∀ k ≥ K, ∀ c, a k = some c → step (x k) c = some (x (k + 1)) → I (x k) →
      I (x (k + 1)) ∧ r (x (k + 1)) ≤ r (x k) ∧ (c = b → r (x (k + 1)) < r (x k)) :=
    fun k hk c hc hs hI =>
      (hstep k hk c hc hs hI).resolve_left fun hQ => hno ⟨k + 1, by omega, hQ⟩
  have hI : ∀ k ≥ K, I (x k) :=
    h.stays h₀ fun k hk c hc hs hI => (hstep' k hk c hc hs hI).1
  obtain ⟨K', hK', hnever⟩ := h.settles r (fun _ c => c = b)
    (fun k hk c hc hs => (hstep' k hk c hc hs (hI k hk)).2)
  -- the action is not taken any more, though it is enabled
  obtain ⟨j, hj, haj⟩ := hb K' fun j hj => henabled j (hK'.trans hj) (hI j (hK'.trans hj))
  exact hnever j hj b haj rfl

/-- What enables a fair action and is not ended by any other does not hold, if the action is not
taken then. -/
theorem Behaviour.never (h : Behaviour step s₀ x a) (hb : Fair step x a b)
    (hno : ∀ k ≥ K, I (x k) → a k ≠ some b)
    (henabled : ∀ k ≥ K, I (x k) → (step (x k) b).isSome)
    (hstep : ∀ k ≥ K, ∀ c, a k = some c → step (x k) c = some (x (k + 1)) → I (x k) →
      I (x (k + 1))) :
    ∀ k ≥ K, ¬ I (x k) := by
  intro k hk hI
  obtain ⟨j, -, hj⟩ := h.reaches (Q := fun _ => False) hb (fun _ => 0) hI
    (fun j hj => henabled j (hk.trans hj))
    (fun j hj c hc hs hI => Or.inr ⟨hstep j (hk.trans hj) c hc hs hI, le_rfl,
      fun hcb => absurd (hcb ▸ hc) (hno j (hk.trans hj) hI)⟩)
  exact hj

end

/-! ## Schedulers -/

section Play

variable (step : σ → α → Option σ) (s₀ : σ) (f : Nat → α)

/-- The scheduler that tries the action `f k` at the time `k`. -/
def play : Nat → σ
  | 0 => s₀
  | k + 1 => (step (play k) (f k)).getD (play k)

/-- The actions that are enabled when it tries them. -/
def played (k : Nat) : Option α :=
  if (step (play step s₀ f k) (f k)).isSome then some (f k) else none

variable {step s₀ f}

theorem play_behaviour : Behaviour step s₀ (play step s₀ f) (played step s₀ f) where
  init := rfl
  moves k := by
    cases hs : step (play step s₀ f k) (f k) with
    | none => simp [played, Moves, play, hs]
    | some s' => simp [played, Moves, play, hs]

/-- It takes no others. -/
theorem eq_of_played {k : Nat} {b : α} (h : played step s₀ f k = some b) : b = f k := by
  unfold played at h
  split at h
  · exact (Option.some.inj h).symm
  · cases h

/-- It is fair to the actions that it tries again and again. -/
theorem play_fair {b : α} (hb : ∀ k, ∃ j ≥ k, f j = b) :
    Fair step (play step s₀ f) (played step s₀ f) b := by
  intro k henabled
  obtain ⟨j, hj, rfl⟩ := hb k
  exact ⟨j, hj, if_pos (henabled j hj)⟩

end Play

end Transition
