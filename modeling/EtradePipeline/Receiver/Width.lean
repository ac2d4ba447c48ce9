import EtradePipeline.Receiver.RecordText
import EtradePipeline.Receiver.Rounding
import Mathlib.Data.Nat.Log

/-! How many characters the numbers of a record print to, and the record as a whole. -/

namespace EtradePipeline

/-- The number of decimal digits. -/
def natWidth (n : Nat) : Nat := Nat.log 10 n + 1

def intWidth (x : Int) : Nat := natWidth x.natAbs + if x < 0 then 1 else 0

/-- The digits of the whole part, the point and the two decimals. -/
def priceWidth : Double → Nat
  | .nan | .posInf => 3
  | .negInf => 4
  | .finite q => natWidth ((roundHalfEven (q * 100)).natAbs / 100) + 3 + if q < 0 then 1 else 0

/-- What varies in the record of an event. -/
def recordWidth (ev : Event) : Nat :=
  intWidth ev.seq + intWidth ev.msgTsMs + intWidth ev.recvTsMs + intWidth ev.latencyMs +
    ev.symbolStr.length + priceWidth ev.price + intWidth ev.size + ev.src.cstr.length

theorem natWidth_le_iff {n k : Nat} (positive : 0 < k) : natWidth n ≤ k ↔ n < 10 ^ k := by
  rw [natWidth, Nat.succ_le_iff]
  exact ⟨Nat.lt_pow_of_log_lt (by decide), Nat.log_lt_of_lt_pow' positive.ne'⟩

/-- `%lld` prints at most 20 characters. -/
theorem intWidth_le {x : Int} (least : -10 ^ 19 < x) (below : x < 10 ^ 19) : intWidth x ≤ 20 := by
  have digits : natWidth x.natAbs ≤ 19 := (natWidth_le_iff (by decide)).mpr (by omega)
  unfold intWidth
  split_ifs <;> omega

/-- A price has at most `k` digits before its point exactly when its two decimals do not round up to
the power of ten. -/
theorem wholeWidth_le_iff {q : ℚ} {k : Nat} (positive : 0 < k) :
    natWidth ((roundHalfEven (q * 100)).natAbs / 100) ≤ k ↔ |q| < 10 ^ k - 1 / 200 := by
  have even : ((10 ^ k * 100 : Nat) : Int) % 2 = 0 := by omega
  have evenNeg : -((10 ^ k * 100 : Nat) : Int) % 2 = 0 := by omega
  have high := roundHalfEven_lt_iff (x := q * 100) even
  have low := lt_roundHalfEven_iff (x := q * 100) evenNeg
  rw [natWidth_le_iff positive, Nat.div_lt_iff_lt_mul (by decide), abs_lt]
  push_cast at high low
  have split : (roundHalfEven (q * 100)).natAbs < 10 ^ k * 100 ↔
      -(10 ^ k * 100) < roundHalfEven (q * 100) ∧ roundHalfEven (q * 100) < 10 ^ k * 100 := by
    have cast : ((10 ^ k * 100 : Nat) : Int) = 10 ^ k * 100 := by push_cast; rfl
    rw [← cast]
    omega
  rw [split, high, low]
  constructor <;> rintro ⟨least, most⟩ <;> constructor <;> linarith

theorem priceWidth_le {q : ℚ} (below : |q| < 10 ^ 15) : priceWidth (.finite q) ≤ 20 := by
  obtain ⟨least, below⟩ := abs_lt.mp below
  obtain ⟨floor, ceil⟩ := roundHalfEven_bounds (q * 100)
  have low : -(10 ^ 17 : Int) ≤ (q * 100).floor := by
    rw [Rat.le_floor_iff]
    push_cast
    linarith
  have high : (q * 100).floor < 10 ^ 17 := by
    rw [Rat.floor_lt_iff]
    push_cast
    linarith
  have units : natWidth ((roundHalfEven (q * 100)).natAbs / 100) ≤ 16 :=
    (natWidth_le_iff (by decide)).mpr (by omega)
  rw [priceWidth]
  split_ifs <;> omega

/-! ### Lengths -/

theorem length_printNat (n : Nat) : (printNat n).length = natWidth n := by
  have fits : ∀ k, 0 < k → ((printNat n).length ≤ k ↔ natWidth n ≤ k) := by
    intro k positive
    rw [printNat, List.length_map, Nat.length_toDigits_le_iff (by decide) positive,
      natWidth_le_iff positive]
  have filled : 0 < (printNat n).length := by
    rw [printNat, List.length_map]
    exact Nat.length_toDigits_pos
  exact le_antisymm ((fits _ (Nat.succ_pos _)).mpr (le_refl _)) ((fits _ filled).mp (le_refl _))

theorem length_printInt (x : Int) : (printInt x).length = intWidth x := by
  unfold printInt intWidth
  split_ifs <;> simp [length_printNat]

theorem length_printPrice (price : Double) : (printPrice price).length = priceWidth price := by
  cases price with
  | nan | posInf | negInf => rfl
  | finite q =>
    have digit : ∀ n, natWidth (n % 10) = 1 := by
      intro n
      have small := (natWidth_le_iff (by decide : 0 < 1)).mpr (Nat.mod_lt n (by decide))
      exact le_antisymm small (Nat.succ_pos _)
    have sign : (if q < 0 then bytes "-" else []).length = if q < 0 then 1 else 0 := by
      split_ifs <;> rfl
    have point : (bytes ".").length = 1 := rfl
    simp only [printPrice, priceWidth, List.length_append, length_printNat, digit, sign, point]
    omega

/-- The keys and marks of a record are 88 characters. -/
theorem length_recordText (ev : Event) : (recordText ev).length = recordWidth ev + 88 := by
  have keys : (bytes "seq").length = 3 ∧ (bytes "msg_ts_ms").length = 9 ∧
      (bytes "recv_ts_ms").length = 10 ∧ (bytes "latency_ms").length = 10 ∧
      (bytes "symbol").length = 6 ∧ (bytes "price").length = 5 ∧ (bytes "size").length = 4 ∧
      (bytes "src").length = 3 := by decide
  have marks : (bytes "\x7b").length = 1 ∧ (bytes ":").length = 1 ∧ (bytes ",").length = 1 ∧
      (bytes "\x7d").length = 1 := by decide
  rw [recordText_eq, recordLineText]
  simp only [recordPieces, numberPiece, recordWidth, Event.symbolStr, List.intercalate_cons_cons,
    List.intercalate_singleton, List.length_append, List.length_cons, List.length_nil,
      length_printInt,
    length_printPrice]
  omega

end EtradePipeline
