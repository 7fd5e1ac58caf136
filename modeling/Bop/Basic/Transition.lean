import Mathlib.Data.List.Forall2
import Mathlib.Tactic.Common

set_option autoImplicit false

/-! # Runs of a transition system

A transition system is a partial step function `step : σ → α → Option σ`: the state after
the action `a`, or `none` where the action is not enabled. A run is recorded as the list of
the pairs (state before the step, action), newest first, so that a property of every step
and a property of every visited state are both properties of one list.

* `Run.invariant` is the induction over a run whose steps all meet a condition.
* `Run.visited_rel` compares the states of a run with the ones after them.
* `Run.countP_add_le` bounds the number of steps of a kind by a measure that goes down with them.
* `Run.simulated` follows a run in another system, step by step; in `Run.simulated_labels` the other
  system may wait, and the two show the same.
* `Run.simulated_or` follows a run as long as the other system can take the same actions; where it
  cannot, something bad happened, and stays so.
* `Run.visited_iff` turns a step condition into an exact one: the property holds in all the
  states of a run iff all its steps meet the condition.
-/

namespace Transition

variable {σ α : Type*} {step : σ → α → Option σ} {s₀ s s' : σ} {tr : List (σ × α)}

/-- The runs of `step` from `s₀`, with the steps taken, newest first. -/
inductive Run (step : σ → α → Option σ) (s₀ : σ) : List (σ × α) → σ → Prop
  | nil : Run step s₀ [] s₀
  | snoc {tr : List (σ × α)} {s s' : σ} {a : α} :
      Run step s₀ tr s → step s a = some s' → Run step s₀ ((s, a) :: tr) s'

/-- The states of a run that took the steps `tr` and is now in `s`. -/
def visited (tr : List (σ × α)) (s : σ) : List σ := s :: tr.map Prod.fst

/-- Running a list of actions in order, each under the condition `C`. -/
def exec (step : σ → α → Option σ) (C : σ → α → Prop) [∀ s a, Decidable (C s a)] (s : σ) :
    List α → Option σ
  | [] => some s
  | a :: as => if C s a then (step s a).bind (fun s' => exec step C s' as) else none

theorem mem_visited_self (tr : List (σ × α)) (s : σ) : s ∈ visited tr s := List.mem_cons_self

theorem Run.append {tr₁ : List (σ × α)} (h₁ : Run step s₀ tr₁ s) :
    ∀ {tr₂ : List (σ × α)} {s' : σ}, Run step s tr₂ s' → Run step s₀ (tr₂ ++ tr₁) s' := by
  intro tr₂ s' h₂
  induction h₂ with
  | nil => exact h₁
  | snoc _ hs ih => exact ih.snoc hs

/-- A successful execution is a run that took exactly its actions, under the condition. -/
theorem exec_run {C : σ → α → Prop} [∀ s a, Decidable (C s a)] :
    ∀ (as : List α) {s s' : σ}, exec step C s as = some s' →
      ∃ tr, Run step s tr s' ∧ (tr.map Prod.snd).reverse = as ∧ ∀ p ∈ tr, C p.1 p.2
  | [], s, s', h => by
      obtain rfl : s = s' := by simpa [exec] using h
      exact ⟨[], .nil, rfl, fun p hp => absurd hp List.not_mem_nil⟩
  | a :: as, s, s', h => by
      by_cases hC : C s a
      · rw [exec, if_pos hC] at h
        obtain ⟨s₁, hstep, hrest⟩ := Option.bind_eq_some_iff.mp h
        obtain ⟨tr, hrun, hacts, hall⟩ := exec_run as hrest
        refine ⟨tr ++ [(s, a)], (Run.snoc .nil hstep).append hrun, ?_, ?_⟩
        · simp [hacts]
        · intro p hp
          rcases List.mem_append.mp hp with hp | hp
          · exact hall p hp
          · rw [List.mem_singleton.mp hp]
            exact hC
      · rw [exec, if_neg hC] at h
        cases h

/-- A run that an execution exhibits, ending in a state that passes a test. -/
theorem exists_run_of_exec {C : σ → α → Prop} [∀ s a, Decidable (C s a)] {p : σ → Bool}
    {as : List α} (h : (exec step C s₀ as).any p = true) :
    ∃ tr s, Run step s₀ tr s ∧ (tr.map Prod.snd).reverse = as ∧
      (∀ x ∈ tr, C x.1 x.2) ∧ p s = true := by
  obtain ⟨s, hs, hp⟩ := (Option.any_eq_true p _).mp h
  obtain ⟨tr, hrun, hacts, hall⟩ := exec_run as hs
  exact ⟨tr, s, hrun, hacts, hall, hp⟩

/-- Every state a run visits is the end of a run that took a suffix of its steps. -/
theorem Run.of_visited (h : Run step s₀ tr s) {x : σ} (hx : x ∈ visited tr s) :
    ∃ tr', Run step s₀ tr' x ∧ tr' <:+ tr := by
  induction h with
  | nil =>
      obtain rfl : x = s₀ := by simpa [visited] using hx
      exact ⟨[], .nil, List.suffix_rfl⟩
  | @snoc tr s s' a hrun hs ih =>
      rcases List.mem_cons.mp hx with rfl | hx
      · exact ⟨_, hrun.snoc hs, List.suffix_rfl⟩
      · obtain ⟨tr', hr', hsuf⟩ := ih hx
        exact ⟨tr', hr', hsuf.trans (List.suffix_cons _ _)⟩

/-- What no step changes relates every state of a run to the ones after it. -/
theorem Run.visited_rel {R : σ → σ → Prop} (h : Run step s₀ tr s) (hrefl : ∀ x, R x x)
    (hstep : ∀ {x s a s'}, R x s → step s a = some s' → R x s') :
    ∀ x ∈ visited tr s, R x s := by
  induction h with
  | nil =>
      intro x hx
      obtain rfl : x = s₀ := by simpa [visited] using hx
      exact hrefl x
  | snoc hrun hs ih =>
      intro x hx
      rcases List.mem_cons.mp hx with rfl | hx
      · exact hrefl x
      · exact hstep (ih x hx) hs

section

variable {C : σ → α → Prop} {I P : σ → Prop}

/-- **Invariants of runs.** What holds at the start and is kept by every step that meets
`C` holds at the end of every run whose steps all meet `C`. -/
theorem Run.invariant (h : Run step s₀ tr s) (h₀ : I s₀)
    (hstep : ∀ {s a s'}, I s → C s a → step s a = some s' → I s')
    (hC : ∀ p ∈ tr, C p.1 p.2) : I s := by
  induction h with
  | nil => exact h₀
  | snoc _ hs ih =>
      have hpre := ih (fun p hp => hC p (List.mem_cons_of_mem _ hp))
      exact hstep hpre (hC _ List.mem_cons_self) hs

/-- The same for every state the run visits. -/
theorem Run.invariant_visited (h : Run step s₀ tr s) (h₀ : I s₀)
    (hstep : ∀ {s a s'}, I s → C s a → step s a = some s' → I s')
    (hC : ∀ p ∈ tr, C p.1 p.2) : ∀ x ∈ visited tr s, I x := by
  intro x hx
  obtain ⟨tr', hr', hsuf⟩ := h.of_visited hx
  exact hr'.invariant h₀ hstep (fun p hp => hC p (hsuf.subset hp))

/-- **Measures of runs.** A number `m` is kept by the steps that meet `C` and goes down with those
of the kind `p`: then the run has at most as many of these steps. -/
theorem Run.countP_add_le {M : σ → Nat → Prop} {p : σ × α → Bool} {m : Nat}
    (h : Run step s₀ tr s) (h₀ : M s₀ m)
    (hstep : ∀ {s n a s'}, M s n → C s a → step s a = some s' →
      ∃ n', M s' n' ∧ n' + (if p (s, a) then 1 else 0) ≤ n)
    (hC : ∀ q ∈ tr, C q.1 q.2) : ∃ n, M s n ∧ tr.countP p + n ≤ m := by
  induction h with
  | nil => exact ⟨m, h₀, by simp⟩
  | @snoc tr s s' a hrun hs ih =>
      obtain ⟨n, hn, hle⟩ := ih (fun q hq => hC q (List.mem_cons_of_mem _ hq))
      obtain ⟨n', hn', hle'⟩ := hstep (a := a) hn (hC (s, a) List.mem_cons_self) hs
      refine ⟨n', hn', ?_⟩
      rw [List.countP_cons]
      omega

/-- **Simulation.** A system takes a step `b` for each step `a` of the other one, with `A a b`, and
the states stay in the relation `R`: then it has a run for each run of the other one, with the same
number of steps and with related states on the way. -/
theorem Run.simulated {τ β : Type*} {step' : τ → β → Option τ} {t₀ : τ} {R : σ → τ → Prop}
    {A : α → β → Prop} (h : Run step s₀ tr s) (h₀ : R s₀ t₀)
    (hstep : ∀ {s t a s'}, R s t → C s a → step s a = some s' →
      ∃ b t', A a b ∧ step' t b = some t' ∧ R s' t')
    (hC : ∀ p ∈ tr, C p.1 p.2) :
    ∃ tr' t, Run step' t₀ tr' t ∧ R s t ∧
      List.Forall₂ (fun p q => R p.1 q.1 ∧ A p.2 q.2) tr tr' := by
  induction h with
  | nil => exact ⟨[], t₀, .nil, h₀, .nil⟩
  | @snoc tr s s' a hrun hs ih =>
      obtain ⟨tr', t, hrun', hR, hall⟩ := ih (fun p hp => hC p (List.mem_cons_of_mem _ hp))
      obtain ⟨b, t', hA, hs', hR'⟩ := hstep hR (hC (s, a) List.mem_cons_self) hs
      exact ⟨(t, b) :: tr', t', hrun'.snoc hs', hR', .cons ⟨hR, hA⟩ hall⟩

/-- **Trace inclusion.** What `label` shows of a step is a step of the other system, and a step that
shows nothing leaves the other system where it is: then what the run shows is a run there. -/
theorem Run.simulated_labels {τ β : Type*} {step' : τ → β → Option τ} {t₀ : τ} {R : σ → τ → Prop}
    {label : σ → α → Option β} (h : Run step s₀ tr s) (h₀ : R s₀ t₀)
    (hstep : ∀ {s t a s'}, R s t → C s a → step s a = some s' →
      (label s a = none ∧ R s' t) ∨
        ∃ b t', label s a = some b ∧ step' t b = some t' ∧ R s' t')
    (hC : ∀ p ∈ tr, C p.1 p.2) :
    ∃ tr' t, Run step' t₀ tr' t ∧ R s t ∧
      tr'.map Prod.snd = tr.filterMap fun p => label p.1 p.2 := by
  induction h with
  | nil => exact ⟨[], t₀, .nil, h₀, rfl⟩
  | @snoc tr s s' a hrun hs ih =>
      obtain ⟨tr', t, hrun', hR, hlabels⟩ := ih (fun p hp => hC p (List.mem_cons_of_mem _ hp))
      rcases hstep hR (hC (s, a) List.mem_cons_self) hs with ⟨hl, hR'⟩ | ⟨b, t', hl, hs', hR'⟩
      · refine ⟨tr', t, hrun', hR', ?_⟩
        rw [List.filterMap_cons_none (f := fun p : σ × α => label p.1 p.2) hl, hlabels]
      · refine ⟨(t, b) :: tr', t', hrun'.snoc hs', hR', ?_⟩
        rw [List.filterMap_cons_some (f := fun p : σ × α => label p.1 p.2) hl, ← hlabels,
          List.map_cons]

/-- A run is determined by its actions. -/
theorem Run.eq_of_actions (h : Run step s₀ tr s) :
    ∀ {tr₂ : List (σ × α)} {s₂ : σ}, Run step s₀ tr₂ s₂ →
      tr₂.map Prod.snd = tr.map Prod.snd → s₂ = s := by
  induction h with
  | nil =>
      intro tr₂ s₂ h₂ hacts
      cases h₂ with
      | nil => rfl
      | snoc => cases hacts
  | snoc _ hs ih =>
      intro tr₂ s₂ h₂ hacts
      cases h₂ with
      | nil => cases hacts
      | snoc hrun₂ hs₂ =>
          obtain ⟨rfl, hrest⟩ := List.cons.inj hacts
          obtain rfl := ih hrun₂ hrest
          exact Option.some.inj (hs₂.symm.trans hs)

/-- **Exact simulation.** Let each step of the one system either be one of the other, with states
in the relation `R` again, or end in a bad state when the other system cannot take it, and bad
states stay bad. Then a run is one of the other system as well, or it is bad and the other system
has no run with these actions. -/
theorem Run.simulated_or {τ : Type*} {step' : τ → α → Option τ} {t₀ : τ} {R : σ → τ → Prop}
    {Bad : σ → Prop} (h : Run step s₀ tr s) (h₀ : R s₀ t₀)
    (hstep : ∀ {s t a s'}, R s t → step s a = some s' →
      (∃ t', step' t a = some t' ∧ R s' t') ∨ (step' t a = none ∧ Bad s'))
    (hbad : ∀ {s a s'}, Bad s → step s a = some s' → Bad s') :
    (∃ tr' t, Run step' t₀ tr' t ∧ tr'.map Prod.snd = tr.map Prod.snd ∧ R s t) ∨
      (Bad s ∧ ∀ tr' t, Run step' t₀ tr' t → tr'.map Prod.snd ≠ tr.map Prod.snd) := by
  induction h with
  | nil => exact Or.inl ⟨[], t₀, .nil, rfl, h₀⟩
  | @snoc tr s s' a hrun hs ih =>
      rcases ih with ⟨tr', t, hrun', hacts, hR⟩ | ⟨hbad', hno⟩
      · rcases hstep hR hs with ⟨t', hs', hR'⟩ | ⟨hnone, hbad'⟩
        · exact Or.inl ⟨(t, a) :: tr', t', hrun'.snoc hs', by simp [hacts], hR'⟩
        · refine Or.inr ⟨hbad', fun tr₂ t₂ h₂ hacts₂ => ?_⟩
          cases h₂ with
          | nil => cases hacts₂
          | snoc hrun₂ hs₂ =>
              obtain ⟨rfl, hrest⟩ := List.cons.inj hacts₂
              obtain rfl := hrun'.eq_of_actions hrun₂ (hrest.trans hacts.symm)
              rw [hnone] at hs₂
              cases hs₂
      · refine Or.inr ⟨hbad hbad' hs, fun tr₂ t₂ h₂ hacts₂ => ?_⟩
        cases h₂ with
        | nil => cases hacts₂
        | snoc hrun₂ _ => exact hno _ _ hrun₂ (List.cons.inj hacts₂).2

/-- **Exact step conditions.** All the steps of a run meet `D`. Let `I` be kept by every step
that meets `C` and imply `P`, and let every step from an `I` state that misses `C` end in a
state without `P`. Then the run has `P` in all the states it visits iff all its steps meet
`C`. -/
theorem Run.visited_iff {D : σ → α → Prop} (h : Run step s₀ tr s) (hD : ∀ p ∈ tr, D p.1 p.2)
    (h₀ : I s₀) (hstep : ∀ {s a s'}, I s → D s a → C s a → step s a = some s' → I s')
    (hIP : ∀ {s}, I s → P s)
    (hbad : ∀ {s a s'}, I s → D s a → ¬ C s a → step s a = some s' → ¬ P s') :
    (∀ x ∈ visited tr s, P x) ↔ ∀ p ∈ tr, C p.1 p.2 := by
  have hboth : ∀ {s a s'}, I s → (D s a ∧ C s a) → step s a = some s' → I s' :=
    fun hI hDC hs => hstep hI hDC.1 hDC.2 hs
  constructor
  · intro hP
    induction h with
    | nil => intro p hp; cases hp
    | @snoc tr s s' a hrun hs ih =>
        have hDtr : ∀ p ∈ tr, D p.1 p.2 := fun p hp => hD p (List.mem_cons_of_mem _ hp)
        have hprev := ih hDtr (fun x hx => hP x (List.mem_cons_of_mem _ hx))
        have hI : I s := hrun.invariant h₀ hboth (fun p hp => ⟨hDtr p hp, hprev p hp⟩)
        have hCs : C s a := by
          by_contra hC
          exact hbad hI (hD _ List.mem_cons_self) hC hs (hP s' List.mem_cons_self)
        intro p hp
        rcases List.mem_cons.mp hp with rfl | hp
        · exact hCs
        · exact hprev p hp
  · intro hC x hx
    exact hIP (h.invariant_visited h₀ hboth (fun p hp => ⟨hD p hp, hC p hp⟩) x hx)

end

end Transition
