import EtradePipeline.Receiver.RecordJson
import EtradePipeline.Receiver.Rounding

/-! What `std::stod` makes of a price that `%.2f` has printed: the `double` nearest to the
hundredths printed. -/

namespace EtradePipeline

/-- The number is one that a `double` can have. -/
def Double.Representable : Double → Prop
  | .finite q => roundToDouble q = q ∧ |q| < 2 ^ 1024
  | _ => True

/-- What `std::stod` makes of a price that was printed with two decimals. -/
def Double.readBack : Double → Double
  | .finite q => .finite (roundToDouble (roundHalfEven (q * 100) / 100))
  | d => d

theorem printedPrice_value (q : ℚ) : (printedPrice q).value = roundHalfEven (q * 100) / 100 := by
  have magnitude : (printedPrice q).magnitude = ((roundHalfEven (q * 100)).natAbs : ℚ) / 100 := by
    simp only [Numeral.magnitude, printedPrice, Option.getD_some, Option.elim_none,
      zpow_zero, mul_one]
    rw [← decimals, digitsValue_hundredths, length_decimals]
    norm_num
  by_cases below : q < 0
  · have sign : (printedPrice q).sign.isMinus = true := by simp [printedPrice, below, Sign.isMinus]
    rw [Numeral.value, sign, if_pos rfl, magnitude, cast_of_nonpos (hundredths_nonpos below),
      neg_div]
  · have sign : (printedPrice q).sign.isMinus = false := by simp [printedPrice, below, Sign.isMinus]
    rw [Numeral.value, sign, if_neg Bool.false_ne_true, magnitude,
      cast_of_nonneg (hundredths_nonneg (not_lt.mp below))]

/-- A `double` of more than 53 binary digits is an integer. -/
theorem exists_int_of_large {q : ℚ} (kept : roundToDouble q = q) (large : 2 ^ 53 ≤ |q|) :
    ∃ n : Int, q = n := by
  have positive : 0 < |q| := lt_of_lt_of_le (by positivity) large
  have least : 53 ≤ Int.log 2 |q| := by
    rw [← Int.zpow_le_iff_le_log (by decide) positive]
    exact_mod_cast large
  obtain ⟨k, ulp⟩ : ∃ k : Nat, max (Int.log 2 |q| - 52) (-1074) = k :=
    ⟨(max (Int.log 2 |q| - 52) (-1074)).toNat, by omega⟩
  refine ⟨roundHalfEven (q / 2 ^ (k : Int)) * 2 ^ k, ?_⟩
  simp only [roundToDouble, ulp] at kept
  push_cast
  rw [← zpow_natCast, kept]

/-- A price without decimals is read back as it was. -/
theorem readBack_of_large {q : ℚ} (kept : roundToDouble q = q) (large : 2 ^ 53 ≤ |q|) :
    (Double.finite q).readBack = .finite q := by
  obtain ⟨n, rfl⟩ := exists_int_of_large kept large
  have hundredths : roundHalfEven ((n : ℚ) * 100) = n * 100 := by
    have whole := roundHalfEven_intCast (n * 100)
    push_cast at whole
    exact whole
  have same : ((n * 100 : Int) : ℚ) / 100 = n := by
    push_cast
    rw [mul_div_cancel_right₀ _ (by norm_num)]
  rw [Double.readBack, hundredths, same, kept]

theorem abs_readBack_of_small {q : ℚ} (small : |q| < 2 ^ 53) :
    |roundToDouble (roundHalfEven (q * 100) / 100)| ≤ 2 ^ 54 + 1 := by
  have near := abs_roundHalfEven_sub (q * 100)
  have moved := abs_sub_abs_le_abs_sub (roundHalfEven (q * 100) : ℚ) (q * 100)
  have hundred : |q * 100| = |q| * 100 := by rw [abs_mul, abs_of_pos (by norm_num : (0 : ℚ) < 100)]
  have rounded := abs_roundToDouble_le ((roundHalfEven (q * 100) : ℚ) / 100)
  rw [abs_div, abs_of_pos (by norm_num : (0 : ℚ) < 100)] at rounded
  linarith

theorem readBack_finite {q : ℚ} (representable : (Double.finite q).Representable) :
    |roundToDouble (roundHalfEven (q * 100) / 100)| < 2 ^ 1024 := by
  obtain ⟨kept, finite⟩ := representable
  by_cases large : 2 ^ 53 ≤ |q|
  · rw [Double.finite.inj (readBack_of_large kept large)]
    exact finite
  · calc |roundToDouble (roundHalfEven (q * 100) / 100)| ≤ 2 ^ 54 + 1 :=
          abs_readBack_of_small (not_le.mp large)
      _ < 2 ^ 55 := by norm_num
      _ ≤ 2 ^ 1024 := pow_le_pow_right₀ (by norm_num) (by decide)

/-- What `std::stod` converts to is a `double`. -/
theorem representable_of_stod {s : Bytes} {d : Double} (converted : stod s = some d) :
    d.Representable := by
  unfold stod at converted
  split at converted
  · unfold Double.nearest at converted
    simp only at converted
    split_ifs at converted with large
    cases converted
    exact ⟨roundToDouble_idem _, not_le.mp large⟩
  · rename_i named
    cases d with
    | finite q => exact absurd converted (named q)
    | nan | negInf | posInf => trivial

theorem stod_printPrice {price : Double} (representable : price.Representable) :
    stod (printPrice price) = some price.readBack := by
  cases price with
  | nan | posInf | negInf => decide +kernel
  | finite q =>
    have finite := readBack_finite representable
    rw [← printedPrice_text, stod_text, printedPrice_value, Double.readBack]
    generalize roundHalfEven (q * 100) = n at finite ⊢
    by_cases zero : n = 0
    · subst zero
      decide +kernel
    · have least : (1 : ℚ) ≤ |(n : ℚ)| := by exact_mod_cast Int.one_le_abs zero
      refine Double.nearest_of_normal ?_ finite
      rw [abs_div, abs_of_pos (by norm_num : (0 : ℚ) < 100)]
      calc (2 : ℚ) ^ (-1021 : Int) ≤ 2 ^ (-7 : Int) := zpow_le_zpow_right₀ (by norm_num) (by decide)
        _ ≤ |(n : ℚ)| / 100 := by
          norm_num
          linarith

end EtradePipeline
