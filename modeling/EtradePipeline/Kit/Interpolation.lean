import Mathlib.Algebra.Order.Floor.Semiring
import Mathlib.Tactic.Linarith

/-! Linear interpolation between the values of a sequence at whole numbers. -/

namespace Kit.Interpolation

variable {K : Type*} [Field K] [LinearOrder K] [IsStrictOrderedRing K] [FloorSemiring K]

/-- The value at `k`, between those at the whole numbers below and above it. -/
def interpolate (s : ℕ → K) (k : K) : K := s ⌊k⌋₊ + (s (⌊k⌋₊ + 1) - s ⌊k⌋₊) * (k - ⌊k⌋₊)

variable {s : ℕ → K} {j k : K}

theorem interpolate_natCast (s : ℕ → K) (n : ℕ) : interpolate s n = s n := by
  rw [interpolate, Nat.floor_natCast, sub_self, mul_zero, add_zero]

theorem le_interpolate (mono : Monotone s) (nonneg : 0 ≤ k) : s ⌊k⌋₊ ≤ interpolate s k := by
  have rise : 0 ≤ s (⌊k⌋₊ + 1) - s ⌊k⌋₊ := sub_nonneg.mpr (mono (Nat.le_succ _))
  have part : 0 ≤ k - ⌊k⌋₊ := sub_nonneg.mpr (Nat.floor_le nonneg)
  exact le_add_of_nonneg_right (mul_nonneg rise part)

theorem interpolate_le (mono : Monotone s) (k : K) : interpolate s k ≤ s (⌊k⌋₊ + 1) := by
  have rise : 0 ≤ s (⌊k⌋₊ + 1) - s ⌊k⌋₊ := sub_nonneg.mpr (mono (Nat.le_succ _))
  have part : k - ⌊k⌋₊ ≤ 1 := by linarith [Nat.lt_floor_add_one k]
  have scaled := mul_le_of_le_one_right rise part
  unfold interpolate
  linarith

/-- The interpolation of an ascending sequence ascends: within a cell by its slope, and from cell to
cell by the values at whole numbers. -/
theorem interpolate_mono (mono : Monotone s) (nonneg : 0 ≤ j) (le : j ≤ k) :
    interpolate s j ≤ interpolate s k := by
  rcases (Nat.floor_mono le).eq_or_lt with same | before
  · have rise : 0 ≤ s (⌊k⌋₊ + 1) - s ⌊k⌋₊ := sub_nonneg.mpr (mono (Nat.le_succ _))
    have parts : j - ⌊k⌋₊ ≤ k - ⌊k⌋₊ := sub_le_sub_right le _
    have scaled := mul_le_mul_of_nonneg_left parts rise
    unfold interpolate
    rw [same]
    linarith
  · calc interpolate s j ≤ s (⌊j⌋₊ + 1) := interpolate_le mono j
      _ ≤ s ⌊k⌋₊ := mono before
      _ ≤ interpolate s k := le_interpolate mono (nonneg.trans le)

theorem interpolate_mem_Icc (mono : Monotone s) {m n : ℕ} (least : (m : K) ≤ k) (most : k ≤ n) :
    s m ≤ interpolate s k ∧ interpolate s k ≤ s n := by
  have first := interpolate_mono mono (Nat.cast_nonneg m) least
  have last := interpolate_mono mono ((Nat.cast_nonneg m).trans least) most
  rw [interpolate_natCast] at first last
  exact ⟨first, last⟩

end Kit.Interpolation
