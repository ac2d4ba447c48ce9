import EtradePipeline.Receiver.Fields
import EtradePipeline.Receiver.Record
import EtradePipeline.Receiver.Rounding

/-! The numbers that `%lld` and `%.2f` print are decimal integers and numerals. -/

namespace EtradePipeline

/-! ### Digits -/

/-- The decimal digits of a number. -/
def natDigits (n : Nat) : List (Fin 10) :=
  (Nat.toDigits 10 n).map fun c => Fin.ofNat 10 (c.toNat - '0'.toNat)

theorem digit_of_char (n : Nat) (digit : n < 10) :
    Fin.ofNat 10 ((Nat.digitChar n).toNat - '0'.toNat) = ⟨n, digit⟩ ∧
      byte (Nat.digitChar n) = digitByte ⟨n, digit⟩ := by
  have all : ∀ d : Fin 10, Fin.ofNat 10 ((Nat.digitChar d.val).toNat - '0'.toNat) = d ∧
      byte (Nat.digitChar d.val) = digitByte d := by decide
  exact all ⟨n, digit⟩

/-- The digits of a number are those of its tenth and its last one. -/
theorem natDigits_eq (n : Nat) : natDigits n =
    (if n < 10 then [] else natDigits (n / 10)) ++ [⟨n % 10, Nat.mod_lt n (by decide)⟩] := by
  rw [natDigits, Nat.toDigits_eq_if (by decide)]
  split_ifs with digit
  · rw [List.map_singleton, (digit_of_char n digit).1, List.nil_append]
    simp only [Nat.mod_eq_of_lt digit]
  · rw [List.map_append, List.map_singleton, (digit_of_char (n % 10) (Nat.mod_lt n (by decide))).1]
    rfl

theorem natDigits_of_digit {d : Nat} (digit : d < 10) : natDigits d = [⟨d, digit⟩] := by
  rw [natDigits_eq, if_pos digit, List.nil_append]
  simp only [Nat.mod_eq_of_lt digit]

theorem natDigits_ne_nil (n : Nat) : natDigits n ≠ [] := by
  rw [natDigits_eq]
  simp

theorem printNat_eq (n : Nat) : printNat n = digitText (natDigits n) := by
  induction n using Nat.strong_induction_on with
  | _ n ih =>
    rw [printNat, Nat.toDigits_eq_if (by decide), natDigits_eq]
    split_ifs with digit
    · simp [digitText, (digit_of_char n digit).2, Nat.mod_eq_of_lt digit]
    · have tenth := ih (n / 10) (by omega)
      rw [printNat] at tenth
      rw [List.map_append, tenth, digitText, digitText, List.map_append, List.map_singleton,
        List.map_singleton, (digit_of_char (n % 10) (Nat.mod_lt n (by decide))).2]

theorem digitsValue_append_one (ds : List (Fin 10)) (d : Fin 10) :
    digitsValue (ds ++ [d]) = 10 * digitsValue ds + d.val := by
  simp [digitsValue_eq_foldl, List.foldl_append]

theorem digitsValue_natDigits (n : Nat) : digitsValue (natDigits n) = n := by
  induction n using Nat.strong_induction_on with
  | _ n ih =>
    rw [natDigits_eq, digitsValue_append_one]
    split_ifs with digit
    · simp only [digitsValue, List.map_nil, ofDigits, List.foldl_nil]
      omega
    · rw [ih (n / 10) (by omega)]
      simp only
      omega

/-- There is no needless zero before the digits of a number. -/
theorem natDigits_leading (n : Nat) (zero : (natDigits n).head? = some 0) : natDigits n = [0] := by
  induction n using Nat.strong_induction_on with
  | _ n ih =>
    rw [natDigits_eq] at zero ⊢
    split_ifs at zero ⊢ with digit
    · simpa using zero
    · rw [List.head?_append_of_ne_nil _ (natDigits_ne_nil _)] at zero
      have tenth := ih (n / 10) (by omega) zero
      have value := digitsValue_natDigits (n / 10)
      rw [tenth, digitsValue_eq_foldl] at value
      exact absurd value.symm (by simp; omega)

/-! ### Integers -/

/-- The integer that `%lld` prints. -/
def printedInt (x : Int) : Integer :=
  ⟨if x < 0 then .minus else .none, natDigits x.natAbs, natDigits_ne_nil _⟩

theorem printedInt_text (x : Int) : (printedInt x).text = printInt x := by
  unfold Integer.text printedInt printInt
  split_ifs <;> simp [printNat_eq, Sign.text]

theorem printedInt_value (x : Int) : (printedInt x).value = x := by
  by_cases negative : x < 0
  · simp only [Integer.value, printedInt, if_pos negative, Sign.isMinus, if_true,
      digitsValue_natDigits]
    omega
  · simp only [Integer.value, printedInt, if_neg negative, Sign.isMinus, digitsValue_natDigits]
    simp only [Bool.false_eq_true, if_false]
    omega

theorem printedInt_unsigned (x : Int) : (printedInt x).sign ≠ .plus := by
  unfold printedInt
  split_ifs <;> exact Sign.noConfusion

theorem toLl_printInt {x : Int} (least : -2 ^ 63 ≤ x) (below : x < 2 ^ 63) :
    toLl (printInt x) = some x := by
  rw [← printedInt_text, toLl_text (printedInt_unsigned x), printedInt_value,
    wrap64_of_small least below]

/-! ### Prices -/

/-- The numeral that `%.2f` prints of a finite number. -/
def printedPrice (q : ℚ) : Numeral :=
  let hundredths := (roundHalfEven (q * 100)).natAbs
  { sign := if q < 0 then .minus else .none
    whole := natDigits (hundredths / 100)
    fraction := some (natDigits (hundredths / 10 % 10) ++ natDigits (hundredths % 10))
    exponent := none
    nonempty := by simp [natDigits_ne_nil] }

theorem printedPrice_text (q : ℚ) : (printedPrice q).text = printPrice (.finite q) := by
  simp only [Numeral.text, printedPrice, printPrice, Numeral.fractionText, Numeral.exponentText,
    Option.elim_some, Option.elim_none, printNat_eq]
  split_ifs <;> simp [Sign.text, digitText, bytes, byte]

/-- The last two digits of hundredths. -/
def decimals (h : Nat) : List (Fin 10) := natDigits (h / 10 % 10) ++ natDigits (h % 10)

theorem length_decimals (h : Nat) : (decimals h).length = 2 := by
  rw [decimals, natDigits_of_digit (Nat.mod_lt _ (by decide)),
    natDigits_of_digit (Nat.mod_lt _ (by decide))]
  rfl

theorem digitsValue_hundredths (h : Nat) : digitsValue (natDigits (h / 100) ++ decimals h) = h := by
  have tenths : h / 10 % 10 < 10 := Nat.mod_lt _ (by decide)
  have last : h % 10 < 10 := Nat.mod_lt _ (by decide)
  rw [decimals, natDigits_of_digit tenths, natDigits_of_digit last, ← List.append_assoc,
    digitsValue_append_one, digitsValue_append_one, digitsValue_natDigits]
  simp only
  omega

/-- The hundredths have the sign of the price, or are zero. -/
theorem hundredths_nonneg {q : ℚ} (least : 0 ≤ q) : 0 ≤ roundHalfEven (q * 100) :=
  roundHalfEven_nonneg (mul_nonneg least (by norm_num))

theorem hundredths_nonpos {q : ℚ} (below : q < 0) : roundHalfEven (q * 100) ≤ 0 :=
  roundHalfEven_nonpos (mul_neg_of_neg_of_pos below (by norm_num))

end EtradePipeline
