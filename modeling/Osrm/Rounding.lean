import Mathlib.Data.Rat.Floor
import Mathlib.Tactic.Common
import Mathlib.Tactic.Linarith

/-!
Rounding to the nearest integer with halves away from zero, which is what `std::round` and `std::lround` do.
-/
namespace Osrm.Rounding

section Field
variable {K : Type} [Field K] [LinearOrder K] [IsStrictOrderedRing K] [FloorRing K]

def lround (x : K) : ℤ := if x < 0 then -⌊-x + 1 / 2⌋ else ⌊x + 1 / 2⌋

omit [IsStrictOrderedRing K] in
private theorem lround_of_nonneg {x : K} (sign : 0 ≤ x) : lround x = ⌊x + 1 / 2⌋ := by simp [lround,not_lt.mpr sign]

private theorem lround_neg (x : K) : lround (-x) = -lround x := by
  rcases lt_trichotomy x 0 with negative | rfl | positive
  · simp [lround,negative,negative.le]
  · simp [lround]; norm_num
  · simp [lround,positive,positive.le]

@[simp] theorem lround_intCast (n : ℤ) : lround (n : K) = n := by
  have half (m : ℤ) : ⌊(m : K) + 1 / 2⌋ = m := Int.floor_eq_iff.mpr ⟨by linarith,by linarith⟩
  rw [lround]
  split_ifs
  · rw [← Int.cast_neg,half,neg_neg]
  · exact half n

omit [IsStrictOrderedRing K] in
theorem lround_lt_iff {x : K} (sign : 0 ≤ x) {n : ℤ} : lround x < n ↔ x + 1 / 2 < n := by
  rw [lround_of_nonneg sign,Int.floor_lt]

omit [IsStrictOrderedRing K] in
theorem le_lround_iff {x : K} (sign : 0 ≤ x) {n : ℤ} : n ≤ lround x ↔ (n : K) ≤ x + 1 / 2 := by
  rw [lround_of_nonneg sign,Int.le_floor]

theorem lround_mono {x y : K} (sign : 0 ≤ x) (le : x ≤ y) : lround x ≤ lround y := by
  rw [lround_of_nonneg sign,lround_of_nonneg (sign.trans le)]
  exact Int.floor_mono (by linarith)

theorem abs_lround_le {x : K} {n : ℤ} (bound : |x| ≤ n) : |lround x| ≤ n := by
  have positive (y : K) (sign : 0 ≤ y) (le : y ≤ n) : |lround y| ≤ n := by
    have low := lround_mono le_rfl sign
    have high := lround_mono sign le
    rw [← Int.cast_zero,lround_intCast] at low
    rw [lround_intCast] at high
    exact abs_le.mpr ⟨by linarith,high⟩
  rcases le_total 0 x with sign | sign
  · exact positive x sign ((le_abs_self x).trans bound)
  · rw [← neg_neg x,lround_neg,abs_neg]
    exact positive (-x) (by linarith) ((neg_le_abs x).trans bound)

end Field

def truncated (x : ℚ) : ℤ := x.num.tdiv x.den

@[simp] theorem truncated_intCast (n : ℤ) : truncated n = n := by simp [truncated]

end Osrm.Rounding
