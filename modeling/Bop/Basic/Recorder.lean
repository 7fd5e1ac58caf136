import Bop.Basic.Transition

set_option autoImplicit false

/-! # Recorders

A recorder keeps data of its own beside a transition system: at each step it looks at the state
and at the action, reads an input that the system does not see (a clock, say) and updates its
data. It never blocks a step and never changes one.

* `Run.forget` and `Run.recorded` say that the system is not disturbed: what a recorded run does
  is a run of the system, and every run of the system can be recorded, whatever the inputs are.
* `Run.record_invariant` is the induction for facts about the state and the data together; what
  is known of all reachable states of the system may be used in it.
-/

namespace Transition

variable {σ α ι γ : Type*} {step : σ → α → Option σ} {note : σ → α → ι → γ → γ}

/-- The system `step` with a recorder: `note` says what becomes of the recorder's data. -/
def recorded (step : σ → α → Option σ) (note : σ → α → ι → γ → γ) (x : σ × γ) (e : α × ι) :
    Option (σ × γ) :=
  (step x.1 e.1).map fun s' => (s', note x.1 e.1 e.2 x.2)

/-- The steps of the system, of a run that was recorded. -/
def unrecorded (tr : List ((σ × γ) × (α × ι))) : List (σ × α) :=
  tr.map fun q => (q.1.1, q.2.1)

theorem recorded_eq_some {s s' : σ} {g g' : γ} {a : α} {i : ι} :
    recorded step note (s, g) (a, i) = some (s', g') ↔
      step s a = some s' ∧ g' = note s a i g := by
  unfold recorded
  rw [Option.map_eq_some_iff]
  constructor
  · rintro ⟨t, ht, heq⟩
    obtain ⟨rfl, rfl⟩ := Prod.mk.inj heq
    exact ⟨ht, rfl⟩
  · rintro ⟨hs, rfl⟩
    exact ⟨s', hs, rfl⟩

/-- **Recording shows nothing new**: a recorded run is a run. -/
theorem Run.forget {x₀ x : σ × γ} {tr : List ((σ × γ) × (α × ι))}
    (h : Run (recorded step note) x₀ tr x) : Run step x₀.1 (unrecorded tr) x.1 := by
  induction h with
  | nil => exact .nil
  | @snoc tr x y e hrun hs ih =>
      obtain ⟨s, g⟩ := x
      obtain ⟨s', g'⟩ := y
      obtain ⟨a, i⟩ := e
      exact ih.snoc (recorded_eq_some.mp hs).1

/-- **Recording hides nothing**: every run can be recorded, with any inputs. -/
theorem Run.recorded {s₀ s : σ} {tr : List (σ × α)} (h : Run step s₀ tr s) (g₀ : γ) :
    ∀ {is : List ι}, is.length = tr.length → ∃ tr' g,
      Run (Transition.recorded step note) (s₀, g₀) tr' (s, g) ∧ unrecorded tr' = tr ∧
        tr'.map (fun q => q.2.2) = is := by
  induction h with
  | nil =>
      intro is his
      obtain rfl := List.length_eq_zero_iff.mp his
      exact ⟨[], g₀, .nil, rfl, rfl⟩
  | @snoc tr s s' a hrun hs ih =>
      intro is his
      obtain ⟨i, is, rfl⟩ : ∃ i is', is = i :: is' := by
        cases is with
        | nil => cases his
        | cons i is => exact ⟨i, is, rfl⟩
      obtain ⟨tr', g, hrun', htr, hin⟩ := ih (Nat.succ.inj his)
      refine ⟨((s, g), (a, i)) :: tr', _, hrun'.snoc (recorded_eq_some.mpr ⟨hs, rfl⟩), ?_, ?_⟩
      · show (s, a) :: unrecorded tr' = _
        rw [htr]
      · show i :: tr'.map _ = _
        rw [hin]

/-- **Invariants of recorded runs.** A fact `J` about the state and the data holds at the start and
is kept by every step that meets `C`; `I` is what is known of all states that the system
reaches. -/
theorem Run.record_invariant {x₀ x : σ × γ} {tr : List ((σ × γ) × (α × ι))} {I : σ → Prop}
    {J : σ → γ → Prop} {C : σ × γ → α × ι → Prop} (h : Run (Transition.recorded step note) x₀ tr x)
    (hI : ∀ {tr s}, Run step x₀.1 tr s → I s) (h₀ : J x₀.1 x₀.2)
    (hstep : ∀ {s a s' i g}, I s → J s g → C (s, g) (a, i) → step s a = some s' →
      J s' (note s a i g))
    (hC : ∀ q ∈ tr, C q.1 q.2) : J x.1 x.2 := by
  induction h with
  | nil => exact h₀
  | @snoc tr x y e hrun hs ih =>
      obtain ⟨s, g⟩ := x
      obtain ⟨s', g'⟩ := y
      obtain ⟨a, i⟩ := e
      obtain ⟨hst, rfl⟩ := recorded_eq_some.mp hs
      have hJ : J s g := ih (fun q hq => hC q (List.mem_cons_of_mem _ hq))
      exact hstep (hI hrun.forget) hJ (hC _ List.mem_cons_self) hst

end Transition
