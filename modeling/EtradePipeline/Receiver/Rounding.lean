import EtradePipeline.Receiver.Stod
import Mathlib.Algebra.Order.Field.Power
import Mathlib.Tactic.Linarith
import Mathlib.Tactic.NormNum

/-! How far the rounding to a `double` goes.  Integers of up to 53 binary digits stay as they are,
and a number that is not below the least normal one moves by a part of 2⁵³ at most.  So a quotient
of such integers, rounded, is between the same two integers as before. -/

namespace EtradePipeline

theorem abs_roundHalfEven_sub (q : ℚ) : |(roundHalfEven q : ℚ) - q| ≤ 1 / 2 := by
  have below : (q.floor : ℚ) ≤ q := Rat.floor_le q
  have above : q - 1 < (q.floor : ℚ) := Rat.lt_floor
  unfold roundHalfEven
  simp only
  split_ifs <;> push_cast <;> rw [abs_le] <;> constructor <;> linarith

theorem roundHalfEven_bounds (q : ℚ) :
    q.floor ≤ roundHalfEven q ∧ roundHalfEven q ≤ q.floor + 1 := by
  unfold roundHalfEven
  simp only
  split_ifs <;> omega

/-- Rounding keeps the sign. -/
theorem roundHalfEven_nonneg {q : ℚ} (least : 0 ≤ q) : 0 ≤ roundHalfEven q :=
  (Rat.le_floor_iff.mpr (by simpa using least)).trans (roundHalfEven_bounds q).1

theorem roundHalfEven_nonpos {q : ℚ} (below : q < 0) : roundHalfEven q ≤ 0 := by
  have floor : q.floor < 0 := Rat.floor_lt_iff.mpr (by simpa using below)
  have ceil := (roundHalfEven_bounds q).2
  omega

/-- An even integer is not reached by rounding from half a unit below it. -/
theorem roundHalfEven_lt_iff {x : ℚ} {n : Int} (even : n % 2 = 0) :
    roundHalfEven x < n ↔ x < n - 1 / 2 := by
  have below : (x.floor : ℚ) ≤ x := Rat.floor_le x
  have above : x < x.floor + 1 := by
    have := Rat.lt_floor (x := x)
    linarith
  obtain low | last | high : x.floor < n - 1 ∨ x.floor = n - 1 ∨ n ≤ x.floor := by omega
  · have small : (x.floor : ℚ) + 1 ≤ n - 1 := by
      exact_mod_cast (by omega : x.floor + 1 ≤ n - 1)
    exact iff_of_true (by have := (roundHalfEven_bounds x).2; omega) (by linarith)
  · have odd : ¬ x.floor % 2 = 0 := by omega
    have value : (x.floor : ℚ) = n - 1 := by
      rw [last]
      push_cast
      rfl
    unfold roundHalfEven
    simp only [if_neg odd]
    split_ifs with down up
    · exact iff_of_true (by omega) (by linarith)
    · exact iff_of_false (by omega) (by linarith)
    · exact iff_of_false (by omega) (by linarith)
  · have large : (n : ℚ) ≤ x.floor := by exact_mod_cast high
    exact iff_of_false (by have := (roundHalfEven_bounds x).1; omega) (by linarith)

theorem lt_roundHalfEven_iff {x : ℚ} {n : Int} (even : n % 2 = 0) :
    n < roundHalfEven x ↔ n + 1 / 2 < x := by
  have below : (x.floor : ℚ) ≤ x := Rat.floor_le x
  have above : x < x.floor + 1 := by
    have := Rat.lt_floor (x := x)
    linarith
  obtain low | same | high : x.floor < n ∨ x.floor = n ∨ n < x.floor := by omega
  · have small : (x.floor : ℚ) + 1 ≤ n := by
      exact_mod_cast (by omega : x.floor + 1 ≤ n)
    exact iff_of_false (by have := (roundHalfEven_bounds x).2; omega) (by linarith)
  · have value : (x.floor : ℚ) = n := by rw [same]
    unfold roundHalfEven
    simp only [same, if_pos even]
    rw [same] at below above
    split_ifs with down up
    · exact iff_of_false (by omega) (by linarith)
    · exact iff_of_true (by omega) (by linarith)
    · exact iff_of_false (by omega) (by linarith)
  · have large : (n : ℚ) + 1 ≤ x.floor := by exact_mod_cast high
    exact iff_of_true (by have := (roundHalfEven_bounds x).1; omega) (by linarith)

theorem roundHalfEven_intCast (n : Int) : roundHalfEven (n : ℚ) = n := by
  simp [roundHalfEven]

/-- Rounding does not leave the integers around a number. -/
theorem abs_roundHalfEven_le {x : ℚ} {n : Nat} (most : |x| ≤ n) : |roundHalfEven x| ≤ n := by
  obtain ⟨least, most⟩ := abs_le.mp most
  have low : -(n : Int) ≤ x.floor := Rat.le_floor_iff.mpr (by push_cast; exact least)
  refine abs_le.mpr ⟨low.trans (roundHalfEven_bounds x).1, ?_⟩
  have near := abs_roundHalfEven_sub x
  have reach : (roundHalfEven x : ℚ) < n + 1 := by linarith [(abs_le.mp near).2]
  have reach : roundHalfEven x < n + 1 := by exact_mod_cast reach
  omega


theorem roundToDouble_error {q : ℚ} (normal : (2 : ℚ) ^ (-1022 : Int) ≤ |q|) :
    |roundToDouble q - q| ≤ |q| / 2 ^ 53 := by
  have positive : 0 < |q| := lt_of_lt_of_le (zpow_pos (by norm_num) _) normal
  have least : -1022 ≤ Int.log 2 |q| := by
    rw [← Int.zpow_le_iff_le_log (by decide) positive]
    exact normal
  have ulp : max (Int.log 2 |q| - 52) (-1074) = Int.log 2 |q| - 52 := by omega
  have unit : (0 : ℚ) < 2 ^ (Int.log 2 |q| - 52) := zpow_pos (by norm_num) _
  have digits : (2 : ℚ) ^ Int.log 2 |q| ≤ |q| := Int.zpow_log_le_self (by decide) positive
  have split : (2 : ℚ) ^ (Int.log 2 |q| - 52) = 2 ^ Int.log 2 |q| / 2 ^ 52 := by
    rw [zpow_sub₀ (by norm_num)]
    norm_cast
  have near := abs_roundHalfEven_sub (q / 2 ^ (Int.log 2 |q| - 52))
  simp only [roundToDouble, ulp]
  generalize (2 : ℚ) ^ (Int.log 2 |q| - 52) = u at unit split near ⊢
  calc |(roundHalfEven (q / u) : ℚ) * u - q| = |(roundHalfEven (q / u) : ℚ) - q / u| * u := by
        rw [← abs_of_pos unit, ← abs_mul, abs_of_pos unit, sub_mul, div_mul_cancel₀ q unit.ne']
    _ ≤ 1 / 2 * u := by apply mul_le_mul_of_nonneg_right near unit.le
    _ ≤ |q| / 2 ^ 53 := by
      rw [split]
      linarith

theorem roundToDouble_intCast {n : Int} (small : |n| < 2 ^ 53) : roundToDouble n = n := by
  by_cases zero : n = 0
  · subst zero
    have rounded := roundHalfEven_intCast 0
    rw [Int.cast_zero] at rounded ⊢
    rw [roundToDouble, zero_div, rounded, Int.cast_zero, zero_mul]
  have positive : (0 : ℚ) < |(n : ℚ)| := by positivity
  have log : Int.log 2 |(n : ℚ)| < 53 := by
    rw [← Int.lt_zpow_iff_log_lt (by decide) positive]
    exact_mod_cast small
  obtain ⟨k, ulp⟩ : ∃ k : Nat, max (Int.log 2 |(n : ℚ)| - 52) (-1074) = -(k : Int) :=
    ⟨(-(max (Int.log 2 |(n : ℚ)| - 52) (-1074))).toNat, by omega⟩
  have whole : (n : ℚ) / 2 ^ (-(k : Int)) = ((n * 2 ^ k : Int) : ℚ) := by
    rw [zpow_neg, div_inv_eq_mul, zpow_natCast]
    push_cast
    rfl
  simp only [roundToDouble, ulp, whole, roundHalfEven_intCast]
  push_cast
  rw [mul_assoc, zpow_neg, zpow_natCast, mul_inv_cancel₀ (by positivity), mul_one]

/-- A number of at most 53 digits stays as it is. -/
theorem roundToDouble_of_digits {n e : Int} (few : |n| ≤ 2 ^ 53) (least : -1074 ≤ e) :
    roundToDouble (n * 2 ^ e) = n * 2 ^ e := by
  have short : ∀ {n e : Int}, |n| < 2 ^ 53 → -1074 ≤ e → roundToDouble (n * 2 ^ e) = n * 2 ^ e := by
    intro n e few least
    by_cases zero : n = 0
    · subst zero
      rw [Int.cast_zero, zero_mul]
      exact_mod_cast roundToDouble_intCast (n := 0) (by decide)
    have unit : (0 : ℚ) < 2 ^ e := zpow_pos (by norm_num) _
    have size : |(n : ℚ) * 2 ^ e| = |(n : ℚ)| * 2 ^ e := by rw [abs_mul, abs_of_pos unit]
    have positive : 0 < |(n : ℚ) * 2 ^ e| := by
      rw [size]
      positivity
    have log : Int.log 2 |(n : ℚ) * 2 ^ e| < 53 + e := by
      rw [← Int.lt_zpow_iff_log_lt (by decide) positive, size, Nat.cast_ofNat,
        zpow_add₀ (by norm_num)]
      have digits : |(n : ℚ)| < 2 ^ (53 : Int) := by exact_mod_cast few
      apply mul_lt_mul_of_pos_right digits unit
    obtain ⟨k, ulp⟩ : ∃ k : Nat, max (Int.log 2 |(n : ℚ) * 2 ^ e| - 52) (-1074) = e - k :=
      ⟨(e - max (Int.log 2 |(n : ℚ) * 2 ^ e| - 52) (-1074)).toNat, by omega⟩
    have whole : (n : ℚ) * 2 ^ e / 2 ^ (e - (k : Int)) = ((n * 2 ^ k : Int) : ℚ) := by
      rw [zpow_sub₀ (by norm_num), zpow_natCast]
      push_cast
      field_simp
    simp only [roundToDouble, ulp, whole, roundHalfEven_intCast]
    rw [← whole, div_mul_cancel₀ _ (zpow_pos (by norm_num) _).ne']
  obtain less | most := lt_or_eq_of_le few
  · exact short less least
  · -- Of the 54 digits of a power of two the last is 0.
    obtain ⟨m, rfl⟩ : ∃ m, n = m * 2 := by
      refine ⟨n / 2, ?_⟩
      obtain same | same := abs_choice n <;> omega
    have half : |m| < 2 ^ 53 := by
      rw [abs_mul] at most
      norm_num at most ⊢
      omega
    have kept := short half (le_trans least (Int.le_add_one (le_refl e)))
    rw [zpow_add_one₀ (by norm_num), mul_comm ((2 : ℚ) ^ e), ← mul_assoc] at kept
    push_cast
    exact kept

/-- A `double` stays as it is. -/
theorem roundToDouble_idem (q : ℚ) : roundToDouble (roundToDouble q) = roundToDouble q := by
  have unit : (0 : ℚ) < 2 ^ max (Int.log 2 |q| - 52) (-1074) := zpow_pos (by norm_num) _
  refine roundToDouble_of_digits ?_ (le_max_right _ _)
  by_cases zero : q = 0
  · subst zero
    rw [zero_div]
    exact (abs_eq_zero.mpr (by exact_mod_cast roundHalfEven_intCast 0)).le.trans (by norm_num)
  have positive : 0 < |q| := abs_pos.mpr zero
  have below : |q / 2 ^ max (Int.log 2 |q| - 52) (-1074)| ≤ 2 ^ 53 := by
    rw [abs_div, abs_of_pos unit, div_le_iff₀ unit]
    have digits : |q| < 2 ^ (Int.log 2 |q| + 1) := by
      exact_mod_cast Int.lt_zpow_succ_log_self (b := 2) (by decide) |q|
    refine digits.le.trans ?_
    rw [← zpow_natCast, ← zpow_add₀ (by norm_num)]
    refine zpow_le_zpow_right₀ (by norm_num) ?_
    have := le_max_left (Int.log 2 |q| - 52) (-1074)
    push_cast
    omega
  exact abs_roundHalfEven_le below

/-- Above the least normal number a `double` has all of the 53 digits. -/
theorem roundTo53Digits_of_normal {q : ℚ} (normal : (2 : ℚ) ^ (-1022 : Int) ≤ |q|) :
    roundTo53Digits q = roundToDouble q := by
  have positive : 0 < |q| := lt_of_lt_of_le (zpow_pos (by norm_num) _) normal
  have least : -1022 ≤ Int.log 2 |q| := by
    rw [← Int.zpow_le_iff_le_log (by decide) positive]
    exact normal
  have ulp : max (Int.log 2 |q| - 52) (-1074) = Int.log 2 |q| - 52 := by omega
  simp only [roundTo53Digits, roundToDouble, ulp]

/-- Rounding does not do more than to double a number. -/
theorem abs_roundToDouble_le (q : ℚ) : |roundToDouble q| ≤ 2 * |q| := by
  have doubled : ∀ x : ℚ, |(roundHalfEven x : ℚ)| ≤ 2 * |x| := by
    intro x
    have near := abs_roundHalfEven_sub x
    have moved := abs_sub_abs_le_abs_sub (roundHalfEven x : ℚ) x
    by_cases small : |x| < 1 / 2
    · have less : |(roundHalfEven x : ℚ)| < 1 := by linarith
      have zero : roundHalfEven x = 0 := by
        rw [← Int.abs_lt_one_iff]
        exact_mod_cast less
      rw [zero, Int.cast_zero, abs_zero]
      positivity
    · linarith
  simp only [roundToDouble]
  have unit : (0 : ℚ) < 2 ^ max (Int.log 2 |q| - 52) (-1074) := zpow_pos (by norm_num) _
  generalize (2 : ℚ) ^ max (Int.log 2 |q| - 52) (-1074) = u at unit ⊢
  calc |(roundHalfEven (q / u) : ℚ) * u| = |(roundHalfEven (q / u) : ℚ)| * u := by
        rw [abs_mul, abs_of_pos unit]
    _ ≤ 2 * |q / u| * u := by apply mul_le_mul_of_nonneg_right (doubled _) unit.le
    _ = 2 * |q| := by rw [abs_div, abs_of_pos unit, mul_assoc, div_mul_cancel₀ _ unit.ne']

/-- A number that underflows does not overflow. -/
theorem roundToDouble_finite_of_small {q : ℚ} (small : |roundTo53Digits q| < 2 ^ (-1022 : Int)) :
    |roundToDouble q| < 2 ^ 1024 := by
  have tiny : (2 : ℚ) ^ (-1022 : Int) ≤ 1 := zpow_le_one_of_nonpos₀ (by norm_num) (by norm_num)
  have most : (2 : ℚ) ≤ 2 ^ 1024 := le_self_pow₀ (by norm_num) (by norm_num)
  refine lt_of_lt_of_le ?_ most
  by_cases normal : (2 : ℚ) ^ (-1022 : Int) ≤ |q|
  · rw [← roundTo53Digits_of_normal normal]
    exact (small.trans_le tiny).trans one_lt_two
  · calc |roundToDouble q| ≤ 2 * |q| := abs_roundToDouble_le q
      _ < 2 * 1 := by
        apply mul_lt_mul_of_pos_left ((not_le.mp normal).trans_le tiny) two_pos
      _ = 2 := mul_one 2

/-- A number well above the least normal one converts, when the nearest `double` is finite. -/
theorem Double.nearest_of_normal {q : ℚ} (normal : (2 : ℚ) ^ (-1021 : Int) ≤ |q|)
    (finite : |roundToDouble q| < 2 ^ 1024) :
    Double.nearest q = some (.finite (roundToDouble q)) := by
  have half : (2 : ℚ) ^ (-1022 : Int) = 2 ^ (-1021 : Int) / 2 := by
    rw [show (-1022 : Int) = -1021 - 1 from rfl, zpow_sub_one₀ (by norm_num), div_eq_mul_inv]
  have above : (2 : ℚ) ^ (-1022 : Int) ≤ |q| := half ▸ (by linarith [abs_nonneg q])
  have near := roundToDouble_error above
  have kept : |q| - |roundToDouble q - q| ≤ |roundToDouble q| := by
    have split := abs_sub_abs_le_abs_sub q (roundToDouble q)
    rw [abs_sub_comm] at split
    linarith
  have large : ¬ |roundToDouble q| < 2 ^ (-1022 : Int) := by
    rw [half, not_lt]
    linarith [abs_nonneg q]
  simp only [Double.nearest, roundTo53Digits_of_normal above, if_neg (not_le.mpr finite),
    large, false_and, if_false]

/-- A quotient of integers, rounded to a `double`, has the floor that it had. -/
theorem floor_roundToDouble_div {n d : Nat} (small : n < 2 ^ 53) (positive : 0 < d)
    (few : d ≤ 2 ^ 53) :
    (roundToDouble ((n : ℚ) / d)).floor = ((n / d : Nat) : Int) := by
  have divisor : (0 : ℚ) < d := by exact_mod_cast positive
  obtain ⟨k, r, rfl, less⟩ : ∃ k r, n = d * k + r ∧ r < d :=
    ⟨n / d, n % d, (Nat.div_add_mod n d).symm, Nat.mod_lt n positive⟩
  have quotient : (d * k + r) / d = k := by
    rw [Nat.mul_add_div positive, Nat.div_eq_of_lt less, Nat.add_zero]
  have value : ((d * k + r : Nat) : ℚ) / d = k + r / d := by
    push_cast
    rw [add_div, mul_div_cancel_left₀ _ divisor.ne']
  rw [quotient, value]
  by_cases whole : r = 0
  · have bound : k < 2 ^ 53 := lt_of_le_of_lt (Nat.le_mul_of_pos_left k positive) (by omega)
    have kept := roundToDouble_intCast (n := k) (by rw [Nat.abs_cast]; exact_mod_cast bound)
    rw [whole, Nat.cast_zero, zero_div, add_zero]
    rw [Int.cast_natCast] at kept
    rw [kept]
    exact Rat.floor_intCast k
  -- The quotient is at least a part of `d` away from the integers around it, and moves by less.
  have least : 1 / (d : ℚ) ≤ r / d := by
    apply div_le_div_of_nonneg_right _ divisor.le
    exact_mod_cast Nat.one_le_iff_ne_zero.mpr whole
  have most : (r : ℚ) / d + 1 / d ≤ 1 := by
    rw [← add_div, div_le_one divisor]
    exact_mod_cast less
  have nonneg : (0 : ℚ) ≤ k + r / d := by positivity
  have near := roundToDouble_error (q := k + r / d) (by
    rw [abs_of_nonneg nonneg]
    calc (2 : ℚ) ^ (-1022 : Int) ≤ 2 ^ (-53 : Int) := zpow_le_zpow_right₀ (by norm_num) (by decide)
      _ = 1 / 2 ^ 53 := by norm_num
      _ ≤ 1 / d := one_div_le_one_div_of_le divisor (by exact_mod_cast few)
      _ ≤ k + r / d := by
        have : (0 : ℚ) ≤ k := by positivity
        linarith)
  have moved : |(k : ℚ) + r / d| / 2 ^ 53 < 1 / d := by
    rw [abs_of_nonneg nonneg, ← value, div_div, div_lt_div_iff₀ (by positivity) divisor, one_mul]
    have small : ((d * k + r : Nat) : ℚ) < 2 ^ 53 := by exact_mod_cast small
    nlinarith
  obtain ⟨down, up⟩ := abs_le.mp near
  have below : (k : ℚ) ≤ roundToDouble (k + r / d) := by linarith
  have above : roundToDouble (k + r / d) < (k : ℚ) + 1 := by linarith
  apply le_antisymm
  · rw [← Int.lt_add_one_iff, Rat.floor_lt_iff]
    exact_mod_cast above
  · rw [Rat.le_floor_iff]
    exact_mod_cast below

end EtradePipeline
