import Aimsgui.Lib.Words
import Mathlib.Algebra.Order.Ring.Int
import Mathlib.Order.Interval.Set.Defs

/-!
# Fixed-point scaling of an interval

A coordinate of an interval of length `d` is scaled to an interval of length `d'` with one
factor for all coordinates, in units of `1 / unit`: first `d' * unit / d` is computed, then
`x * factor / unit`. Both divisions truncate. Still the scaling is monotone (`scale_mono`) and
stays in the new interval (`scale_mem`), since the first rounding only makes the factor
smaller; and the product in between is at most `d' * unit` (`mul_factor_le`), so that words
that hold this product are wide enough (`factorIn_eq`, `scaleIn_eq`).
-/

namespace FixedPoint

open Words

/-- The factor from length `d` to length `d'`; an interval without length is not scaled. -/
def factor (unit d d' : Int) : Int := if 0 < d then (d' * unit).tdiv d else unit

/-- The coordinate `x`, scaled from length `d` to length `d'`. -/
def scale (unit d d' x : Int) : Int := (x * factor unit d d').tdiv unit

/-- `factor` as computed with words of `w` bits. -/
def factorIn (w : Nat) (unit d d' : Int) : Option Int :=
  if 0 < d then (mul w d' unit).bind fun p => div w p d else some unit

/-- `scale` as computed with words of `w` bits, given the factor. -/
def scaleIn (w : Nat) (unit k x : Int) : Option Int := (mul w x k).bind fun p => div w p unit

variable {w : Nat} {unit d d' x y : Int}

theorem factor_nonneg (hunit : 0 ≤ unit) (hd' : 0 ≤ d') : 0 ≤ factor unit d d' := by
  rw [factor]
  split_ifs with hd
  · exact Int.tdiv_nonneg (mul_nonneg hd' hunit) hd.le
  · exact hunit

/-- A coordinate of the old interval, times the factor, is at most the new length in units. -/
theorem mul_factor_le (hunit : 0 ≤ unit) (hd' : 0 ≤ d') (hx : 0 ≤ x) (hxd : x ≤ d) :
    x * factor unit d d' ≤ d' * unit := by
  have hp : 0 ≤ d' * unit := mul_nonneg hd' hunit
  rw [factor]
  split_ifs with hd
  · -- rounding the factor down leaves `d * factor` below the product it came from
    calc x * (d' * unit).tdiv d ≤ d * (d' * unit).tdiv d :=
          mul_le_mul_of_nonneg_right hxd (Int.tdiv_nonneg hp hd.le)
      _ ≤ d' * unit := by
          have hdiv := Int.mul_tdiv_add_tmod (d' * unit) d
          have hmod := Int.tmod_nonneg d hp
          omega
  · obtain rfl : x = 0 := by omega
    rw [zero_mul]
    exact hp

theorem scale_mono (hunit : 0 < unit) (hd' : 0 ≤ d') (hxy : x ≤ y) :
    scale unit d d' x ≤ scale unit d d' y := by
  apply Int.tdiv_le_tdiv hunit
  exact mul_le_mul_of_nonneg_right hxy (factor_nonneg hunit.le hd')

/-- The scaling stays inside the new interval. -/
theorem scale_mem (hunit : 0 < unit) (hd' : 0 ≤ d') (hx : 0 ≤ x) (hxd : x ≤ d) :
    0 ≤ scale unit d d' x ∧ scale unit d d' x ≤ d' := by
  constructor
  · exact Int.tdiv_nonneg (mul_nonneg hx (factor_nonneg hunit.le hd')) hunit.le
  · have hle := Int.tdiv_le_tdiv hunit (mul_factor_le hunit.le hd' hx hxd)
    rwa [Int.mul_tdiv_cancel _ hunit.ne'] at hle

/-- The factor can be computed in words that hold the new length in units. -/
theorem factorIn_eq (hfits : Fits w (d' * unit)) (h : 0 ≤ d' * unit) :
    factorIn w unit d d' = some (factor unit d d') := by
  rw [factorIn, factor]
  split_ifs with hd
  · rw [mul_eq_some hfits]
    exact div_eq_some hfits h hd
  · rfl

/-- And so can every scaled coordinate. -/
theorem scaleIn_eq (hunit : 0 < unit) (hd' : 0 ≤ d') (hfits : Fits w (d' * unit)) (hx : 0 ≤ x)
    (hxd : x ≤ d) : scaleIn w unit (factor unit d d') x = some (scale unit d d' x) := by
  have hnonneg : 0 ≤ x * factor unit d d' := mul_nonneg hx (factor_nonneg hunit.le hd')
  have hle := mul_factor_le hunit.le hd' hx hxd
  have hfits' : Fits w (x * factor unit d d') :=
    ⟨neg_two_pow_nonpos.trans hnonneg, hle.trans_lt hfits.2⟩
  rw [scaleIn, mul_eq_some hfits']
  exact div_eq_some hfits' hnonneg hunit

end FixedPoint
