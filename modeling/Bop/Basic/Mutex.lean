import Mathlib.Data.List.Basic

set_option autoImplicit false

/-! # The record of a mutex

What threads do to a mutex is a list of events, newest first: a thread takes it, finds it taken,
or gives it back. The list is that of a mutex (`Proper`) if the mutex is taken only when nobody
has it, found taken only when somebody has it, and given back by the thread that has it.

* `owner` is read off the whole list, and `holds` off the events of one thread alone: what the
  thread itself knows. They agree (`Proper.holds_iff`).
* `Proper.between` is mutual exclusion: nobody takes the mutex before the one who has it gives it
  back.
-/

namespace Mutex

variable {τ : Type*}

inductive Event (τ : Type*)
  | take (t : τ)
  | refuse (t : τ) -- the thread found the mutex taken
  | give (t : τ)
  deriving DecidableEq

/-- The thread that has the mutex. -/
def owner : List (Event τ) → Option τ
  | [] | .give _ :: _ => none
  | .take t :: _ => some t
  | .refuse _ :: log => owner log

/-- Each event is one of a mutex that went through the events before. -/
def Proper : List (Event τ) → Prop
  | [] => True
  | .take _ :: log => owner log = none ∧ Proper log
  | .refuse _ :: log => owner log ≠ none ∧ Proper log
  | .give t :: log => owner log = some t ∧ Proper log

variable {t u : τ} {log l₁ l₂ l₃ : List (Event τ)}

theorem Proper.of_append : ∀ {l₂ : List (Event τ)}, Proper (l₂ ++ l₁) → Proper l₁
  | [], h => h
  | .take _ :: _, h | .refuse _ :: _, h | .give _ :: _, h => of_append h.2

/-- Who has the mutex has it until he gives it back. -/
theorem Proper.owner_append : ∀ {l₂ : List (Event τ)}, Proper (l₂ ++ l₁) →
    owner l₁ = some t → .give t ∉ l₂ → owner (l₂ ++ l₁) = some t
  | [], _, ht, _ => ht
  | e :: l₂, h, ht, hnot => by
      have hnot' : .give t ∉ l₂ := fun hmem => hnot (List.mem_cons_of_mem _ hmem)
      cases e with
      | take u =>
          have hfree : owner (l₂ ++ l₁) = none := h.1
          rw [h.2.owner_append ht hnot'] at hfree
          cases hfree
      | refuse u => exact h.2.owner_append ht hnot'
      | give u =>
          have hgiven : owner (l₂ ++ l₁) = some u := h.1
          rw [h.2.owner_append ht hnot'] at hgiven
          obtain rfl := Option.some.inj hgiven
          exact absurd List.mem_cons_self hnot

/-- **Mutual exclusion.** -/
theorem Proper.between (h : Proper (l₃ ++ .take u :: (l₂ ++ .take t :: l₁))) : .give t ∈ l₂ := by
  have htake : Proper (.take u :: (l₂ ++ .take t :: l₁)) := h.of_append
  by_contra hnot
  have hown : owner (l₂ ++ .take t :: l₁) = some t := htake.2.owner_append rfl hnot
  rw [htake.1] at hown
  cases hown

section

variable [DecidableEq τ]

/-- The thread took the mutex and has not given it back. -/
def holds (t : τ) : List (Event τ) → Bool
  | [] => false
  | .take u :: log => u == t || holds t log
  | .refuse _ :: log => holds t log
  | .give u :: log => u != t && holds t log

theorem Proper.holds_iff : ∀ {log : List (Event τ)}, Proper log → (holds t log ↔ owner log = some t)
  | [], _ => by simp [holds, owner]
  | .take u :: log, h => by
      have hnot : holds t log = false := by
        rw [Bool.eq_false_iff, ne_eq, h.2.holds_iff, h.1]
        simp
      simp [holds, owner, hnot]
  | .refuse u :: log, h => h.2.holds_iff
  | .give u :: log, h => by
      have hiff : holds t log ↔ u = t := by rw [h.2.holds_iff, h.1, Option.some.injEq]
      simp [holds, owner, hiff]

end

end Mutex
