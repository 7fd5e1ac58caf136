import Mathlib.Algebra.Order.Ring.Int
import Mathlib.Tactic.Common

set_option autoImplicit false

/-! # Integral types

The integral types of C++: `bool`, and the unsigned and the signed types of any width. Values are
mathematical integers in the range of their type. An operand is promoted to `int` if that is
wider, an unsigned result is reduced modulo the range, a signed result that does not fit is
undefined, and the assignment of a result to a variable reduces it modulo the range of the
variable (to a `bool`: compares it to zero).

`int` has at least 15 value bits; how many there are besides is a parameter.
-/

/-- The width of a signed type does not count the sign bit. -/
inductive IntegralType
  | bool
  | unsigned (width : Nat)
  | signed (width : Nat)
  deriving DecidableEq

namespace IntegralType

def minValue : IntegralType → Int
  | .bool | .unsigned _ => 0
  | .signed width => -2 ^ width

def maxValue : IntegralType → Int
  | .bool => 1
  | .unsigned width | .signed width => 2 ^ width - 1

def Fits (I : IntegralType) (x : Int) : Prop := I.minValue ≤ x ∧ x ≤ I.maxValue

instance (I : IntegralType) : DecidablePred I.Fits := fun _ => inferInstanceAs (Decidable (_ ∧ _))

/-- The values of a type. -/
abbrev Value (I : IntegralType) : Type := { x : Int // I.Fits x }

variable {I : IntegralType} {extra : Nat} {x : Int} {a v : I.Value}

theorem minValue_le_zero (I : IntegralType) : I.minValue ≤ 0 := by
  cases I with
  | bool | unsigned width => exact Int.le_refl 0
  | signed width =>
      have hpos : (0 : Int) < 2 ^ width := Int.pow_pos (by decide)
      show -(2 : Int) ^ width ≤ 0
      omega

theorem zero_le_maxValue (I : IntegralType) : 0 ≤ I.maxValue := by
  cases I with
  | bool => decide
  | unsigned width | signed width =>
      have hpos : (0 : Int) < 2 ^ width := Int.pow_pos (by decide)
      show (0 : Int) ≤ 2 ^ width - 1
      omega

def zero (I : IntegralType) : I.Value := ⟨0, I.minValue_le_zero, I.zero_le_maxValue⟩

/-- Reduced modulo the number of values. -/
def wrap (I : IntegralType) (x : Int) : Int :=
  (x - I.minValue) % (I.maxValue - I.minValue + 1) + I.minValue

theorem wrap_fits (I : IntegralType) (x : Int) : I.Fits (I.wrap x) := by
  have hmin := I.minValue_le_zero
  have hmax := I.zero_le_maxValue
  have hpos : 0 < I.maxValue - I.minValue + 1 := by omega
  have hnonneg := Int.emod_nonneg (x - I.minValue) hpos.ne'
  have hlt := Int.emod_lt_of_pos (x - I.minValue) hpos
  constructor
  · unfold wrap
    omega
  · unfold wrap
    omega

theorem wrap_of_fits (h : I.Fits x) : I.wrap x = x := by
  obtain ⟨hmin, hmax⟩ := h
  rw [wrap, Int.emod_eq_of_lt (by omega) (by omega)]
  omega

/-- The sum of two values that is too large comes back at the lower end. -/
theorem wrap_of_gt (hlo : I.maxValue < x) (hhi : x ≤ 2 * I.maxValue - I.minValue + 1) :
    I.wrap x = x - (I.maxValue - I.minValue + 1) := by
  have hmin := I.minValue_le_zero
  have hmax := I.zero_le_maxValue
  rw [wrap, ← Int.sub_emod_right, Int.emod_eq_of_lt (by omega) (by omega)]
  omega

/-! ## Conversions -/

/-- The conversion of an integer to the type. -/
def convert : (I : IntegralType) → Int → I.Value
  | .bool, x => if x = 0 then ⟨0, by decide⟩ else ⟨1, by decide⟩
  | .unsigned width, x => ⟨wrap (.unsigned width) x, wrap_fits _ x⟩
  | .signed width, x => ⟨wrap (.signed width) x, wrap_fits _ x⟩

theorem convert_of_fits (h : I.Fits x) : I.convert x = ⟨x, h⟩ := by
  cases I with
  | bool =>
      obtain ⟨hmin, hmax⟩ := h
      have hmin' : 0 ≤ x := hmin
      have hmax' : x ≤ 1 := hmax
      obtain rfl | rfl : x = 0 ∨ x = 1 := by omega
      · rfl
      · rfl
  | unsigned width | signed width => exact Subtype.ext (wrap_of_fits h)

theorem convert_eq_wrap (hI : I ≠ .bool) (x : Int) : (I.convert x).1 = I.wrap x := by
  cases I with
  | bool => exact absurd rfl hI
  | unsigned width | signed width => rfl

/-! ## Addition -/

/-- `int`, with 15 value bits and `extra` ones. -/
def intType (extra : Nat) : IntegralType := .signed (15 + extra)

/-- The integral promotions. -/
def promote (extra : Nat) : IntegralType → IntegralType
  | .bool => intType extra
  | .unsigned width => if width ≤ 15 + extra then intType extra else .unsigned width
  | .signed width => if width ≤ 15 + extra then intType extra else .signed width

/-- The result of an operation in a promoted type; `none` where it is undefined. -/
def evaluate : IntegralType → Int → Option Int
  | .signed width, x => if Fits (.signed width) x then some x else none
  | I, x => some (I.convert x).1

/-- `a = a + x`, for a value `x` of the type or a small constant. -/
def plus (extra : Nat) (a : I.Value) (x : Int) : Option I.Value :=
  ((I.promote extra).evaluate (a.1 + x)).map I.convert

theorem fits_of_le {P : IntegralType} (hmin : P.minValue ≤ I.minValue)
    (hmax : I.maxValue ≤ P.maxValue) (h : I.Fits x) : P.Fits x :=
  ⟨hmin.trans h.1, h.2.trans hmax⟩

theorem pow_le_pow {m n : Nat} (h : m ≤ n) : (2 : Int) ^ m ≤ 2 ^ n :=
  pow_le_pow_right₀ (by decide) h

/-- A value of a type is one of the promoted type. -/
theorem Fits.promote (h : I.Fits x) : (I.promote extra).Fits x := by
  cases I with
  | bool =>
      have hone : (2 : Int) ^ 1 ≤ 2 ^ (15 + extra) := pow_le_pow (by omega)
      refine fits_of_le ?_ ?_ h
      · show -(2 : Int) ^ (15 + extra) ≤ 0
        omega
      · show (1 : Int) ≤ 2 ^ (15 + extra) - 1
        omega
  | unsigned width =>
      by_cases hw : width ≤ 15 + extra
      · have hle : (2 : Int) ^ width ≤ 2 ^ (15 + extra) := pow_le_pow hw
        rw [IntegralType.promote, if_pos hw]
        refine fits_of_le ?_ ?_ h
        · exact minValue_le_zero _
        · show (2 : Int) ^ width - 1 ≤ 2 ^ (15 + extra) - 1
          omega
      · rw [IntegralType.promote, if_neg hw]
        exact h
  | signed width =>
      by_cases hw : width ≤ 15 + extra
      · have hle : (2 : Int) ^ width ≤ 2 ^ (15 + extra) := pow_le_pow hw
        rw [IntegralType.promote, if_pos hw]
        refine fits_of_le ?_ ?_ h
        · show -(2 : Int) ^ (15 + extra) ≤ -2 ^ width
          omega
        · show (2 : Int) ^ width - 1 ≤ 2 ^ (15 + extra) - 1
          omega
      · rw [IntegralType.promote, if_neg hw]
        exact h

theorem evaluate_of_fits (h : I.Fits x) : I.evaluate x = some x := by
  cases I with
  | bool | unsigned width =>
      show some (convert _ x).1 = _
      rw [convert_of_fits h]
  | signed width => exact if_pos h

/-- **A sum that fits** is the sum. -/
theorem plus_of_fits (h : I.Fits (a.1 + x)) : plus extra a x = some ⟨a.1 + x, h⟩ := by
  rw [plus, evaluate_of_fits h.promote, Option.map_some, convert_of_fits h]

/-- **A sum that is too large** is undefined, or it comes out too small. -/
theorem plus_of_gt (h : I.maxValue < a.1 + x) (hx : x ≤ I.maxValue) (hI : I ≠ .bool)
    (hv : plus extra a x = some v) : v.1 < a.1 := by
  obtain ⟨y, hy, rfl⟩ := Option.map_eq_some_iff.mp hv
  have hmin := I.minValue_le_zero
  have hwrap : I.wrap (a.1 + x) < a.1 := by
    have ha := a.2.2
    rw [wrap_of_gt h (by omega)]
    omega
  have hsame : (I.convert y).1 = I.wrap (a.1 + x) := by
    rw [convert_eq_wrap hI]
    cases I with
    | bool => exact absurd rfl hI
    | unsigned width =>
        by_cases hw : width ≤ 15 + extra
        · rw [promote, if_pos hw] at hy
          obtain ⟨-, rfl⟩ : _ ∧ a.1 + x = y := by simpa [intType, evaluate] using hy
          rfl
        · rw [promote, if_neg hw] at hy
          obtain rfl := Option.some.inj hy
          exact wrap_of_fits (wrap_fits _ _)
    | signed width =>
        by_cases hw : width ≤ 15 + extra
        · rw [promote, if_pos hw] at hy
          obtain ⟨-, rfl⟩ : _ ∧ a.1 + x = y := by simpa [intType, evaluate] using hy
          rfl
        · rw [promote, if_neg hw] at hy
          obtain ⟨-, rfl⟩ : _ ∧ a.1 + x = y := by simpa [evaluate] using hy
          rfl
  rw [hsame]
  exact hwrap

end IntegralType
