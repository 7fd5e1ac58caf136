import Mathlib.Data.Fintype.Card
import Mathlib.Tactic.Common

set_option autoImplicit false

/-! # Slots

A slot for a value at each index of a family, empty at first. A history of such a family has the
values that were stored and the calls that asked for all of them, newest first. `latest` is what
the slots hold after a history, and `Answered` says that each call got what it should: the latest
values if each slot has one, and a refusal otherwise.
-/

variable {ι : Type*} {α : ι → Type*}

abbrev Slots (α : ι → Type*) := (i : ι) → Option (α i)

namespace Slots

def empty : Slots α := fun _ => none

def set [DecidableEq ι] (s : Slots α) (i : ι) (v : α i) : Slots α := Function.update s i (some v)

section

variable [Fintype ι]

/-- The values, if each slot has one. -/
def values (s : Slots α) : Option ((i : ι) → α i) :=
  if h : ∀ i, (s i).isSome then some fun i => (s i).get (h i) else none

/-- How many slots are empty. -/
def missing (s : Slots α) : Nat := (Finset.univ.filter fun i => (s i).isNone).card

variable {s : Slots α} {i : ι} {v : α i}

theorem values_isSome : s.values.isSome ↔ ∀ i, (s i).isSome := by
  unfold values
  split
  case isTrue h => exact ⟨fun _ => h, fun _ => rfl⟩
  case isFalse h => exact ⟨fun hnone => absurd hnone Bool.false_ne_true, fun hall => absurd hall h⟩

theorem missing_empty : (empty : Slots α).missing = Fintype.card ι := by
  simp [missing, empty]

theorem missing_eq_zero : s.missing = 0 ↔ s.values.isSome := by
  rw [missing, Finset.card_eq_zero, Finset.filter_eq_empty_iff, values_isSome]
  simp [Option.isSome_iff_ne_none]

variable [DecidableEq ι]

theorem missing_set_of_none (h : s i = none) : (s.set i v).missing + 1 = s.missing := by
  have hi : i ∈ Finset.univ.filter fun j => (s j).isNone := by simp [h]
  rw [missing, missing, ← Finset.card_erase_add_one hi]
  congr 2
  ext j
  by_cases hj : j = i
  · subst hj
    simp [set]
  · simp [set, hj]

theorem missing_set_of_isSome (h : (s i).isSome) : (s.set i v).missing = s.missing := by
  rw [missing, missing]
  congr 1
  ext j
  by_cases hj : j = i
  · subst hj
    simp [set, Option.isSome_iff_ne_none.mp h]
  · simp [set, hj]

end

/-! ## Histories -/

inductive Event (α : ι → Type*)
  | stored (i : ι) (v : α i)
  /-- what the call returned, and the values that it got -/
  | called (returned : Bool) (received : Option ((i : ι) → α i))

section

variable [DecidableEq ι]

/-- The value at each index that was stored last. -/
def latest : List (Event α) → Slots α
  | [] => empty
  | .stored i v :: log => (latest log).set i v
  | .called _ _ :: log => latest log

variable [Fintype ι]

/-- Each call returned whether there was a value at every index when it was made, and got these
values, the latest ones. -/
def Answered : List (Event α) → Prop
  | [] => True
  | .stored _ _ :: log => Answered log
  | .called returned received :: log =>
      (returned = (latest log).values.isSome ∧ received = (latest log).values) ∧ Answered log

end

end Slots
