import Bop.Basic.Integral
import Bop.Coroutine.RangeFor
import Mathlib.Data.List.Sort
import Mathlib.Tactic.Ring

set_option autoImplicit false

/-! # iota and range

The generator functions of `job/co_generator.inl`, for any integral type. Both count up in
variables of the type. Where that is undefined the coroutine may do anything, which is a
parameter of the body.

`iota_enumerates` and `range_enumerates_iff` say what a range-for over them visits.
-/

namespace Bop.Generator

open IntegralType (plus plus_of_fits plus_of_gt)

/-- The variables of `iota` and `range`, and whether the coroutine is suspended at its
`co_yield`. -/
structure Counting (I : IntegralType) where
  value : I.Value       -- `value`, or `first`
  limit : I.Value       -- `up_to`, or `last`
  step : Int            -- what is added: one, or `step`
  suspended : Bool := false
  deriving DecidableEq

section Counting

variable {I : IntegralType}

/-- The loop: after a suspension the addition, and then the test and the `co_yield`. -/
def Counting.next (extra : Nat) (undefined : Counting I → Option (I.Value × Counting I))
    (b : Counting I) : Option (I.Value × Counting I) :=
  match if b.suspended then plus extra b.value b.step else some b.value with
  | some value =>
      if value.1 < b.limit.1 then some (value, { b with value := value, suspended := true })
      else none
  | none => undefined b

/-- `for (I value = 0; value < up_to; ++value) co_yield value;` -/
def iota (upTo : I.Value) : Counting I where
  value := I.zero
  limit := upTo
  step := 1

/-- `while (first < last) { co_yield first; first = first + step; }` -/
def range (first last step : I.Value) : Counting I where
  value := first
  limit := last
  step := step.1

/-- The list has the values of the progression below `last`, each once and in order. -/
structure Enumerates (first last step : Int) (xs : List I.Value) : Prop where
  increasing : (xs.map Subtype.val).Pairwise (· < ·)
  mem_iff : ∀ x, x ∈ xs.map Subtype.val ↔ ∃ k : Nat, x = first + k * step ∧ x < last

variable {extra : Nat} {undefined : Counting I → Option (I.Value × Counting I)}
  {b c : Counting I} {v w limit : I.Value} {xs : List I.Value} {first last step : Int}

/-! ## Progressions -/

theorem progression_le (first : Int) (hstep : 1 ≤ step) (k : Nat) :
    first ≤ first + k * step := by
  have hk : 0 ≤ (k : Int) * step := Int.mul_nonneg (Int.natCast_nonneg k) (by omega)
  omega

theorem progression_succ (first step : Int) (k : Nat) :
    first + (k + 1 : Nat) * step = (first + step) + k * step := by
  push_cast
  ring

theorem enumerates_nil (hstep : 1 ≤ step) (h : last ≤ first) :
    Enumerates first last step ([] : List I.Value) where
  increasing := .nil
  mem_iff x := by
    simp only [List.map_nil, List.not_mem_nil, false_iff]
    rintro ⟨k, rfl, hlt⟩
    have hle := progression_le first hstep k
    omega

theorem Enumerates.cons (hstep : 1 ≤ step) (h : v.1 < last)
    (hxs : Enumerates (v.1 + step) last step xs) : Enumerates v.1 last step (v :: xs) where
  increasing := by
    rw [List.map_cons, List.pairwise_cons]
    refine ⟨fun x hx => ?_, hxs.increasing⟩
    obtain ⟨k, rfl, -⟩ := (hxs.mem_iff x).mp hx
    have hle := progression_le (v.1 + step) hstep k
    omega
  mem_iff x := by
    rw [List.map_cons, List.mem_cons, hxs.mem_iff]
    constructor
    · rintro (rfl | ⟨k, rfl, hlt⟩)
      · exact ⟨0, by simp, h⟩
      · exact ⟨k + 1, (progression_succ v.1 step k).symm, hlt⟩
    · rintro ⟨k, rfl, hlt⟩
      cases k with
      | zero => exact Or.inl (by simp)
      | succ k => exact Or.inr ⟨k, progression_succ v.1 step k, hlt⟩

/-! ## The loop -/

/-- A resumed loop goes on as one that starts at the sum. -/
theorem next_suspended (h : plus extra v step = some w) :
    Counting.next extra undefined ⟨v, limit, step, true⟩ =
      Counting.next extra undefined ⟨w, limit, step, false⟩ := by
  simp only [Counting.next, if_true, Bool.false_eq_true, if_false, h]

theorem next_of_lt (h : v.1 < limit.1) :
    Counting.next extra undefined ⟨v, limit, step, false⟩ =
      some (v, ⟨v, limit, step, true⟩) := by
  simp only [Counting.next, Bool.false_eq_true, if_false, if_pos h]

theorem next_of_le (h : limit.1 ≤ v.1) :
    Counting.next extra undefined ⟨v, limit, step, false⟩ = none := by
  simp only [Counting.next, Bool.false_eq_true, if_false, if_neg (Int.not_lt.mpr h)]

theorem produces_congr {c : Counting I}
    (h : Counting.next extra undefined b = Counting.next extra undefined c)
    (hxs : Produces (Counting.next extra undefined) c xs) :
    Produces (Counting.next extra undefined) b xs := by
  cases xs with
  | nil => exact h.trans hxs
  | cons x xs =>
      obtain ⟨b', hb', hrest⟩ := hxs
      exact ⟨b', h.trans hb', hrest⟩

/-- Where every sum that the loop needs fits, the body yields the progression and returns. -/
theorem progression_produces (extra : Nat)
    (undefined : Counting I → Option (I.Value × Counting I)) (hstep : 1 ≤ step)
    (hfits : ∀ k : Nat, v.1 + k * step < limit.1 → v.1 + (k + 1 : Nat) * step ≤ I.maxValue) :
    ∃ xs, Produces (Counting.next extra undefined) ⟨v, limit, step, false⟩ xs ∧
      Enumerates v.1 limit.1 step xs := by
  -- every turn brings the value closer to the limit
  induction hm : (limit.1 - v.1).toNat using Nat.strongRecOn generalizing v with
  | ind m ih =>
      by_cases hlt : v.1 < limit.1
      · have hsum : v.1 + step ≤ I.maxValue := by simpa using hfits 0 (by simpa using hlt)
        have hmin := v.2.1
        have hplus : plus extra v step = some ⟨v.1 + step, _⟩ := plus_of_fits ⟨by omega, hsum⟩
        have hnext : ∀ k : Nat, (v.1 + step) + k * step < limit.1 →
            (v.1 + step) + (k + 1 : Nat) * step ≤ I.maxValue := by
          intro k hk
          rw [← progression_succ] at hk ⊢
          exact hfits (k + 1) hk
        obtain ⟨xs, hxs, hall⟩ := ih _ (by show (limit.1 - (v.1 + step)).toNat < m; omega)
          (v := ⟨v.1 + step, by omega, hsum⟩) hnext rfl
        exact ⟨v :: xs, ⟨_, next_of_lt hlt, produces_congr (next_suspended hplus) hxs⟩,
          hall.cons hstep hlt⟩
      · have hle := Int.not_lt.mp hlt
        exact ⟨[], next_of_le hle, enumerates_nil hstep hle⟩

/-! ## iota -/

/-- **A range-for over `iota(up_to)`** visits `0, 1, .., up_to - 1`, and one more than each of these
values fits. -/
theorem iota_enumerates (extra : Nat) (undefined : Counting I → Option (I.Value × Counting I))
    (upTo : I.Value) : ∃ xs, Visits (Counting.next extra undefined) (iota upTo) xs ∧
      xs.map Subtype.val = (List.range upTo.1.toNat).map Nat.cast ∧
      ∀ v ∈ xs, I.Fits (v.1 + 1) := by
  have hfits : ∀ k : Nat, I.zero.1 + k * 1 < upTo.1 → I.zero.1 + (k + 1 : Nat) * 1 ≤ I.maxValue := by
    intro k hk
    have hmax := upTo.2.2
    omega
  obtain ⟨xs, hxs, hall⟩ := progression_produces extra undefined (by decide) hfits
  refine ⟨xs, visits_iff.mpr hxs, ?_, fun v hv => ?_⟩
  · refine hall.increasing.eq_of_mem_iff ?_ fun x => ?_
    · exact List.pairwise_map.mpr (List.pairwise_lt_range.imp Int.ofNat_lt.mpr)
    · rw [hall.mem_iff, List.mem_map]
      simp only [IntegralType.zero, List.mem_range]
      constructor
      · rintro ⟨k, rfl, hlt⟩
        exact ⟨k, by omega, by omega⟩
      · rintro ⟨k, hk, rfl⟩
        exact ⟨k, by omega, by omega⟩
  · obtain ⟨k, -, hlt⟩ := (hall.mem_iff v.1).mp (List.mem_map_of_mem hv)
    have hmin := v.2.1
    have hmax := upTo.2.2
    exact ⟨by omega, by omega⟩

/-! ## range -/

/-- What an undefined addition may do: the coroutine yields once more. -/
def stray (b : Counting I) : Option (I.Value × Counting I) :=
  some (b.value, { b with suspended := true })

/-- The coroutine is suspended at the value that it yielded last. -/
theorem next_stray (h : Counting.next extra stray ⟨v, limit, step, b.suspended⟩ = some (w, c)) :
    c = ⟨w, limit, step, true⟩ := by
  unfold Counting.next at h
  split at h
  · split at h
    · obtain ⟨rfl, rfl⟩ := Prod.mk.inj (Option.some.inj h)
      rfl
    · cases h
  · obtain ⟨rfl, rfl⟩ := Prod.mk.inj (Option.some.inj h)
    rfl

theorem next_of_last {s : Bool} (h : Produces (Counting.next extra stray) ⟨w, limit, step, s⟩
    (xs ++ [v])) : Counting.next extra stray ⟨v, limit, step, true⟩ = none := by
  induction xs generalizing w s with
  | nil =>
      obtain ⟨c, hc, hnil⟩ := h
      rwa [next_stray (b := ⟨w, limit, step, s⟩) hc] at hnil
  | cons x xs ih =>
      obtain ⟨c, hc, hrest⟩ := h
      rw [next_stray (b := ⟨w, limit, step, s⟩) hc] at hrest
      exact ih hrest

/-- After a sum that is too large the coroutine goes on. -/
theorem next_of_gt (hv : v.1 < limit.1) (h : I.maxValue < v.1 + step) (hstep : step ≤ I.maxValue)
    (hI : I ≠ .bool) : Counting.next extra stray ⟨v, limit, step, true⟩ ≠ none := by
  intro hnone
  cases hplus : plus extra v step with
  | none =>
      simp only [Counting.next, if_true, hplus, stray] at hnone
      cases hnone
  | some w =>
      have hw := plus_of_gt h hstep hI hplus
      rw [next_suspended hplus, next_of_lt (hw.trans hv)] at hnone
      cases hnone

/-- The values of a progression are at most the last one. -/
theorem Enumerates.le_last (h : Enumerates first last step (xs ++ [v])) (hx : w ∈ xs ++ [v]) :
    w.1 ≤ v.1 := by
  have hinc := h.increasing
  rw [List.map_append, List.map_singleton, List.pairwise_append] at hinc
  rcases List.mem_append.mp hx with hx | hx
  · exact (hinc.2.2 _ (List.mem_map_of_mem hx) _ (List.mem_singleton.mpr rfl)).le
  · rw [List.mem_singleton.mp hx]

/-- Where a sum that the loop needs is too large, the progression is not enumerated. -/
theorem not_enumerates_of_gt {first last step : I.Value} (hI : I ≠ .bool) {k : Nat}
    (hlt : first.1 + k * step.1 < last.1) (hgt : I.maxValue < first.1 + (k + 1 : Nat) * step.1) :
    ¬ ∃ xs, Visits (Counting.next extra stray) (range first last step) xs ∧
      Enumerates first.1 last.1 step.1 xs := by
  rintro ⟨xs, hxs, hall⟩
  obtain ⟨w, hw, hwv⟩ := List.mem_map.mp ((hall.mem_iff _).mpr ⟨k, rfl, hlt⟩)
  obtain ⟨ys, v, rfl⟩ := List.eq_nil_or_concat'  xs |>.resolve_left (List.ne_nil_of_mem hw)
  have hle := hall.le_last hw
  obtain ⟨-, -, hv⟩ := (hall.mem_iff v.1).mp (List.mem_map_of_mem (by simp))
  refine next_of_gt hv ?_ step.2.2 hI (next_of_last (visits_iff.mp hxs))
  rw [progression_succ] at hgt
  omega

/-- **A range-for over `range(first, last, step)`** terminates and visits the progression, whatever
undefined additions do, iff no sum that the loop needs is larger than the values of the type. -/
theorem range_enumerates_iff (extra : Nat) {first last step : I.Value} (hstep : 1 ≤ step.1) :
    (∀ undefined, ∃ xs, Visits (Counting.next extra undefined) (range first last step) xs ∧
        Enumerates first.1 last.1 step.1 xs) ↔
      ∀ k : Nat, first.1 + k * step.1 < last.1 →
        first.1 + (k + 1 : Nat) * step.1 ≤ I.maxValue := by
  constructor
  case mp =>
    intro h k hlt
    by_contra hgt
    refine not_enumerates_of_gt ?_ hlt (Int.not_le.mp hgt) (h stray)
    rintro rfl
    -- a `bool` below another one is zero, and the step is one
    have hmin : 0 ≤ first.1 := first.2.1
    have hmax : last.1 ≤ 1 := last.2.2
    have hone : step.1 = 1 := Int.le_antisymm step.2.2 hstep
    have hgt' : ¬ first.1 + (k + 1 : Nat) * step.1 ≤ 1 := hgt
    rw [hone] at hlt hgt'
    omega
  case mpr =>
    intro h undefined
    obtain ⟨xs, hxs, hall⟩ := progression_produces extra undefined hstep h
    exact ⟨xs, visits_iff.mpr hxs, hall⟩

end Counting

/-- `range<uint32_t>(5, 10, 1)` -/
theorem range_enumerates_five_ten : ∃ xs,
    Visits (Counting.next 16 stray)
      (range (I := .unsigned 32) ⟨5, by decide⟩ ⟨10, by decide⟩ ⟨1, by decide⟩) xs ∧
    Enumerates 5 10 1 xs := by
  refine (range_enumerates_iff 16 (by decide)).mpr (fun k hlt => ?_) stray
  have hlt' : 5 + (k : Int) * 1 < 10 := hlt
  show 5 + ((k + 1 : Nat) : Int) * 1 ≤ 2 ^ 32 - 1
  omega

/-- `range<uint8_t>(250, 255, 10)`: the sum 260 becomes 4. -/
theorem range_not_enumerates_uint8 : ¬ ∀ undefined, ∃ xs,
    Visits (Counting.next 16 undefined)
      (range (I := .unsigned 8) ⟨250, by decide⟩ ⟨255, by decide⟩ ⟨10, by decide⟩) xs ∧
    Enumerates 250 255 10 xs := by
  intro h
  exact not_enumerates_of_gt (k := 0) (by decide) (by decide) (by decide) (h stray)

end Bop.Generator
