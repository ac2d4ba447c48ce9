import EtradePipeline.Kit.Split
import EtradePipeline.Receiver.Numeral
import EtradePipeline.Receiver.Parser

/-! What `split_sv` and `to_ll` make of a text: the fields between the delimiters, and the number
that a decimal integer denotes, wrapped around. -/

namespace EtradePipeline

open Kit.Split (splitOn_free length_splitOn)

/-! ### Fields -/

/-- The first delimiter from a position on ends a field. -/
theorem find_eq_some {sv : Bytes} {delim : UInt8} {pos next : Nat}
    (found : find sv delim pos = some next) :
    sv.drop pos = (sv.drop pos).take (next - pos) ++ delim :: sv.drop (next + 1) ∧
      delim ∉ (sv.drop pos).take (next - pos) := by
  obtain ⟨i, first, rfl⟩ := Option.map_eq_some_iff.mp found
  obtain ⟨inside, is, before⟩ := List.findIdx?_eq_some_iff_getElem.mp first
  rw [Nat.add_sub_cancel_left]
  constructor
  · have behind : (sv.drop pos).drop i = delim :: sv.drop (pos + i + 1) := by
      rw [List.drop_eq_getElem_cons inside, of_decide_eq_true is, List.drop_drop, Nat.add_assoc]
    rw [← behind, List.take_append_drop]
  · intro member
    obtain ⟨j, bound, same⟩ := List.mem_iff_getElem.mp member
    rw [List.length_take] at bound
    rw [List.getElem_take] at same
    exact before j (by omega) (by simp [same])

theorem find_eq_none {sv : Bytes} {delim : UInt8} {pos : Nat} (absent : find sv delim pos = none) :
    delim ∉ sv.drop pos := by
  intro member
  have none := List.findIdx?_eq_none_iff.mp (Option.map_eq_none_iff.mp absent) delim member
  simp at none

theorem splitFrom_eq {sv : Bytes} {delim : UInt8} {fuel pos : Nat} (inside : pos ≤ sv.length)
    (enough : sv.length < fuel + pos) :
    splitFrom sv delim fuel pos = some ((sv.drop pos).splitOn delim) := by
  induction fuel generalizing pos with
  | zero => omega
  | succ fuel ih =>
    rw [splitFrom, if_pos inside]
    cases found : find sv delim pos with
    | none => rw [List.splitOn_eq_singleton (find_eq_none found)]
    | some next =>
      obtain ⟨pieces, free⟩ := find_eq_some found
      have bounds := find_bounds found
      have rest := @ih (next + 1) (by omega) (by omega)
      conv => rhs; rw [pieces]
      simp only [rest, Option.map_some]
      rw [List.splitOn_append_cons_self_of_not_mem free]

theorem splitSv_eq (sv : Bytes) (delim : UInt8) : splitSv sv delim = sv.splitOn delim := by
  have split := @splitFrom_eq sv delim (sv.length + 1) 0 (Nat.zero_le _) (by omega)
  rw [splitSv, Option.get_of_eq_some _ split, List.drop_zero]

/-- `split_sv` and joining with the delimiter undo each other. -/
theorem split_inverse_of_join (delim : UInt8) :
    (∀ sv, (∀ fuel, sv.length < fuel → splitFrom sv delim fuel 0 = some (splitSv sv delim)) ∧
      splitSv sv delim ≠ [] ∧ (∀ token ∈ splitSv sv delim, delim ∉ token) ∧
      (splitSv sv delim).length = sv.count delim + 1 ∧
        [delim].intercalate (splitSv sv delim) = sv) ∧
    ∀ tokens, tokens ≠ [] → (∀ token ∈ tokens, delim ∉ token) →
      splitSv ([delim].intercalate tokens) delim = tokens := by
  constructor
  · intro sv
    rw [splitSv_eq]
    refine ⟨fun fuel enough => ?_, List.splitOn_ne_nil delim sv, splitOn_free sv, length_splitOn sv,
      List.intercalate_splitOn delim⟩
    rw [splitFrom_eq (Nat.zero_le _) (by omega), List.drop_zero]
  · intro tokens nonempty free
    rw [splitSv_eq]
    exact List.splitOn_intercalate delim free nonempty

theorem split_inverse_of_join_of_five :
    splitSv (bytes "1|1000||100.00|")
    (byte '|') = [bytes "1", bytes "1000", [], bytes "100.00", []] :=
  (split_inverse_of_join (byte '|')).2 [bytes "1", bytes "1000", [], bytes "100.00", []]
    (List.cons_ne_nil _ _) (by decide)

/-! ### Integers -/

theorem wrap64_add (x y : Int) : wrap64 (wrap64 x + y) = wrap64 (x + y) := Int.bmod_add_bmod

theorem wrap64_mul (x y : Int) : wrap64 (wrap64 x * y) = wrap64 (x * y) := Int.bmod_mul_bmod

theorem wrap64_neg (x : Int) : wrap64 (-wrap64 x) = wrap64 (-x) := Int.bmod_neg_bmod

theorem wrap64_of_small {x : Int} (least : -2 ^ 63 ≤ x) (below : x < 2 ^ 63) : wrap64 x = x :=
  Int.bmod_eq_of_le (by omega) (by omega)

theorem byte_of_digit {c : UInt8} (isDigit : ¬ (c < byte '0' ∨ byte '9' < c)) :
    ∃ d : Fin 10, c = digitByte d := by
  have all : ∀ n : Fin 256, ¬ (UInt8.ofFin n < byte '0' ∨ byte '9' < UInt8.ofFin n) →
      ∃ d : Fin 10, UInt8.ofFin n = digitByte d := by decide +kernel
  exact all c.toFin isDigit

theorem digit_of_byte (d : Fin 10) :
    ¬ (digitByte d < byte '0' ∨ byte '9' < digitByte d) ∧
      (digitByte d - byte '0').toNat = d.val := by
  revert d
  decide

theorem digitsValue_eq_foldl (ds : List (Fin 10)) :
    digitsValue ds = ds.foldl (fun v d => 10 * v + d.val) 0 := by
  rw [digitsValue, ofDigits, List.foldl_map]

theorem foldl_digits_lt (ds : List (Fin 10)) (v : Nat) :
    ds.foldl (fun v d => 10 * v + d.val) v < (v + 1) * 10 ^ ds.length := by
  induction ds generalizing v with
  | nil => simp
  | cons d ds ih =>
    refine (ih (10 * v + d.val)).trans_le ?_
    rw [List.length_cons, pow_succ', ← Nat.mul_assoc]
    exact Nat.mul_le_mul_right _ (by omega)

theorem digitsValue_lt (ds : List (Fin 10)) : digitsValue ds < 10 ^ ds.length := by
  have below := foldl_digits_lt ds 0
  rwa [Nat.zero_add, Nat.one_mul, ← digitsValue_eq_foldl] at below

theorem wrap64_next (v : Nat) (d : Fin 10) :
    wrap64 (wrap64 (wrap64 v * 10) + (digitByte d - byte '0').toNat) =
      wrap64 ((10 * v + d.val : Nat) : Int) := by
  rw [(digit_of_byte d).2, wrap64_mul, wrap64_add]
  congr 1
  push_cast
  ring

/-- The digit loop goes on from the value so far. -/
theorem toLlDigits_text (ds : List (Fin 10)) (v : Nat) :
    toLlDigits (wrap64 v) (digitText ds) =
      some (wrap64 (ds.foldl (fun v d => 10 * v + d.val) v : Nat)) := by
  induction ds generalizing v with
  | nil => rfl
  | cons d ds ih =>
    rw [digitText, List.map_cons, toLlDigits, if_neg (digit_of_byte d).1, wrap64_next]
    exact ih (10 * v + d.val)

theorem exists_digits_of_toLlDigits {s : Bytes} {v w : Int} (converted : toLlDigits v s = some w) :
    ∃ ds, digitText ds = s := by
  induction s generalizing v with
  | nil => exact ⟨[], rfl⟩
  | cons c cs ih =>
    rw [toLlDigits] at converted
    split_ifs at converted with isDigit
    obtain ⟨d, rfl⟩ := byte_of_digit isDigit
    obtain ⟨ds, rfl⟩ := ih converted
    exact ⟨d :: ds, rfl⟩

theorem toLl_text {i : Integer} (unsigned : i.sign ≠ .plus) :
    toLl i.text = some (wrap64 i.value) := by
  obtain ⟨sign, digits, nonempty⟩ := i
  have loop := toLlDigits_text digits 0
  rw [← digitsValue_eq_foldl] at loop
  cases digits with
  | nil => exact absurd rfl nonempty
  | cons d ds =>
    have notMinus : digitByte d ≠ byte '-' := (noSign_digitText nonempty [] (digitByte d) rfl).1
    cases sign with
    | plus => exact absurd rfl unsigned
    | none =>
      simp only [Integer.text, Sign.text, List.nil_append, digitText, List.map_cons, toLl,
        if_neg notMinus]
      exact loop
    | minus =>
      have filled : digitText (d :: ds) ≠ [] := List.cons_ne_nil _ _
      have loop' : toLlDigits 0 (digitText (d :: ds)) = _ := loop
      simp only [Integer.text, Sign.text, List.singleton_append, toLl, if_true,
        if_neg filled, loop', Option.map_some, wrap64_neg]
      rfl

/-- `to_ll` converts nothing but integers without a plus sign. -/
theorem exists_integer_of_toLl {s : Bytes} {v : Int} (converted : toLl s = some v) :
    ∃ i : Integer, i.sign ≠ .plus ∧ i.text = s := by
  unfold toLl at converted
  cases s with
  | nil => cases converted
  | cons c cs =>
    simp only at converted
    split_ifs at converted with minus empty
    · obtain ⟨w, converted, -⟩ := Option.map_eq_some_iff.mp converted
      obtain ⟨ds, rfl⟩ := exists_digits_of_toLlDigits converted
      exact ⟨⟨.minus, ds, fun none => empty (by rw [none]; rfl)⟩, Sign.noConfusion,
        by rw [minus]; rfl⟩
    · obtain ⟨ds, same⟩ := exists_digits_of_toLlDigits converted
      refine ⟨⟨.none, ds, fun none => ?_⟩, Sign.noConfusion, same⟩
      rw [none] at same
      cases same

theorem wrap64_value {i : Integer} (short : i.digits.length ≤ 18) : wrap64 i.value = i.value := by
  have below := digitsValue_lt i.digits
  have bound : 10 ^ i.digits.length ≤ 10 ^ 18 := Nat.pow_le_pow_right (by decide) short
  refine wrap64_of_small ?_ ?_ <;>
    · unfold Integer.value
      split_ifs <;> omega

end EtradePipeline
