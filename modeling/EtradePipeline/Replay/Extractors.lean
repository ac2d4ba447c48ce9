import EtradePipeline.Receiver.RecordText
import EtradePipeline.Replay.Sender

/-! What the extractors of `replay_sender` read behind a key: the numeral that a text starts with,
and the values as a record has them. -/

namespace EtradePipeline

open Kit.Search (behind behind_singleton indexOf_singleton)

/-! ### The integer that a text starts with -/

theorem isDecimalDigit_digitByte (d : Fin 10) : isDecimalDigit (digitByte d) = true := by
  revert d
  decide

theorem isDecimalDigit_of_none {c : UInt8} (none : digitValue 10 c = none) :
    isDecimalDigit c = false := by
  by_contra isDigit
  obtain ⟨d, rfl⟩ := byte_of_digit (c := c) (by
    simp only [isDecimalDigit, Bool.not_eq_false, Bool.and_eq_true, decide_eq_true_eq] at isDigit
    simpa only [not_or, UInt8.not_lt] using isDigit)
  rw [digitValue_digitByte] at none
  cases none

theorem lonlongLoop_text (ds : List (Fin 10)) (v : Nat) {got : Bool} {rest : Bytes}
    (stops : ∀ c ∈ rest.head?, isDecimalDigit c = false) (enough : got = true ∨ ds ≠ []) :
    lonlongLoop (wrap64 v) got (digitText ds ++ rest) =
      some (wrap64 (ds.foldl (fun v d => 10 * v + d.val) v : Nat)) := by
  induction ds generalizing v got with
  | nil =>
    have got : got = true := enough.resolve_right fun ne => ne rfl
    cases rest with
    | nil => simp [digitText, lonlongLoop, got]
    | cons c cs => simp [digitText, lonlongLoop, stops c rfl, got]
  | cons d ds ih =>
    rw [digitText, List.map_cons, List.cons_append, lonlongLoop,
      if_pos (isDecimalDigit_digitByte d), wrap64_next]
    exact ih (10 * v + d.val) (.inl rfl)

theorem lonlongLoop_eq (s : Bytes) :
    lonlongLoop 0 false s =
      if (scanDigits 10 s).1 = [] then none
      else some (wrap64 (ofDigits 10 (scanDigits 10 s).1 : Nat)) := by
  obtain ⟨ds, text, values, stops⟩ := exists_digits s
  have stops : ∀ c ∈ (scanDigits 10 s).2.head?, isDecimalDigit c = false := fun c first =>
    isDecimalDigit_of_none (stops c first)
  by_cases none : ds = []
  · subst none
    rw [values, List.map_nil, if_pos rfl]
    rw [digitText, List.map_nil, List.nil_append] at text
    cases s with
    | nil => rfl
    | cons c cs => simp [lonlongLoop, stops c (by rw [← text]; rfl)]
  · have loop := @lonlongLoop_text ds 0 false _ stops (.inr none)
    rw [← text, ← digitsValue_eq_foldl] at loop
    rw [values, if_neg (by simpa using none), ← digitsValue]
    exact loop

/-- What follows the minus sign that a text may start with. -/
def behindMinus (s : Bytes) : Bytes := if s.head? = some (byte '-') then s.drop 1 else s

theorem behindMinus_text {i : Integer} (unsigned : i.sign ≠ .plus) (tail : Bytes) :
    behindMinus (i.text ++ tail) = digitText i.digits ++ tail := by
  obtain ⟨sign, digits, nonempty⟩ := i
  cases sign with
  | plus => exact absurd rfl unsigned
  | none =>
    exact if_neg fun minus => (noSign_digitText nonempty tail _ minus).1 rfl
  | minus => exact if_pos rfl

/-- The value of the numeral that a text starts with. -/
def leadingLonglong (s : Bytes) : Option Int :=
  (lonlongLoop 0 false (behindMinus s)).map fun v =>
    if s.head? = some (byte '-') then wrap64 (-v) else v

theorem extractLonlongField_eq (s key : Bytes) :
    extractLonlongField s key = (behind key s).bind fun rest =>
      leadingLonglong (rest.dropWhile isGap) := by
  simp only [extractLonlongField, leadingLonglong, behindMinus, decide_eq_true_eq]

theorem leadingLonglong_text {i : Integer} (unsigned : i.sign ≠ .plus) {tail : Bytes}
    (stops : NoDigit tail) :
    leadingLonglong (i.text ++ tail) = some (wrap64 i.value) := by
  obtain ⟨sign, digits, nonempty⟩ := i
  have filled : digits.map Fin.val ≠ [] := by simpa using nonempty
  have loop : lonlongLoop 0 false (digitText digits ++ tail) =
      some (wrap64 (digitsValue digits)) := by
    rw [lonlongLoop_eq, scanDigits_digitText _ stops, if_neg filled, ← digitsValue]
  rw [leadingLonglong, behindMinus_text unsigned, loop, Option.map_some]
  cases sign with
  | plus => exact absurd rfl unsigned
  | none => exact congrArg some (if_neg fun minus => (noSign_digitText nonempty tail _ minus).1 rfl)
  | minus => exact congrArg some ((if_pos rfl).trans (wrap64_neg _))

theorem exists_integer_of_leadingLonglong {s : Bytes} {v : Int}
    (converted : leadingLonglong s = some v) :
    ∃ (i : Integer) (tail : Bytes), i.sign ≠ .plus ∧ s = i.text ++ tail ∧ NoDigit tail := by
  obtain ⟨ds, text, values, stops⟩ := exists_digits (behindMinus s)
  have nonempty : ds ≠ [] := by
    rintro rfl
    rw [leadingLonglong, lonlongLoop_eq, values] at converted
    cases converted
  by_cases minus : s.head? = some (byte '-')
  · obtain ⟨cs, rfl⟩ := List.head?_eq_some_iff.mp minus
    exact ⟨⟨.minus, ds, nonempty⟩, _, Sign.noConfusion, congrArg _ text, stops⟩
  · rw [behindMinus, if_neg minus] at text stops
    exact ⟨⟨.none, ds, nonempty⟩, _, Sign.noConfusion, text, stops⟩

theorem leadingLonglong_eq_some {s : Bytes} {v : Int} :
    leadingLonglong s = some v ↔ ∃ (i : Integer) (tail : Bytes), i.sign ≠ .plus ∧
      s = i.text ++ tail ∧ NoDigit tail ∧ v = wrap64 i.value := by
  constructor
  · intro converted
    obtain ⟨i, tail, unsigned, rfl, stops⟩ := exists_integer_of_leadingLonglong converted
    rw [leadingLonglong_text unsigned stops] at converted
    exact ⟨i, tail, unsigned, rfl, stops, (Option.some.inj converted).symm⟩
  · rintro ⟨i, tail, unsigned, rfl, stops, rfl⟩
    exact leadingLonglong_text unsigned stops

/-! ### The number that a text starts with -/

/-- The characters of a number, behind white space and colons. -/
def numberRun (s : Bytes) : Bytes := (s.dropWhile isGap).takeWhile isNumberChar

theorem extractDoubleField_eq (s key : Bytes) :
    extractDoubleField s key = (behind key s).bind fun rest =>
      if numberRun rest = [] then none else stod (numberRun rest) := rfl

theorem numberRun_append (s : Bytes) {rest : Bytes}
    (ends : ∀ c ∈ rest.head?, isGap c = false ∧ isNumberChar c = false) :
    numberRun (s ++ rest) = numberRun s := by
  have taken : ∀ s : Bytes, (s ++ rest).takeWhile isNumberChar = s.takeWhile isNumberChar := by
    intro s
    induction s with
    | nil =>
      cases rest with
      | nil => rfl
      | cons c cs => simp [(ends c rfl).2]
    | cons c cs ih =>
      by_cases number : isNumberChar c = true
      · simp [number, ih]
      · simp [number]
  induction s with
  | nil =>
    cases rest with
    | nil => rfl
    | cons c cs => simp [numberRun, ends c rfl]
  | cons c cs ih =>
    by_cases gap : isGap c = true
    · simpa [numberRun, gap] using ih
    · rw [numberRun, numberRun, List.cons_append, List.dropWhile_cons_of_neg gap,
        List.dropWhile_cons_of_neg gap]
      exact taken (c :: cs)

/-! ### The values of a record -/

/-- A value of `long long`. -/
def FitsLong (x : Int) : Prop := llongMin ≤ x ∧ x < 2 ^ 63

instance (x : Int) : Decidable (FitsLong x) := inferInstanceAs (Decidable (_ ∧ _))

theorem wrap64_of_fits {x : Int} (fits : FitsLong x) : wrap64 x = x := wrap64_of_small fits.1 fits.2

theorem fits_wrap64 (x : Int) : FitsLong (wrap64 x) :=
  ⟨Int.le_bmod (by decide), Int.bmod_lt (by decide)⟩

theorem fits_of_toLl {s : Bytes} {v : Int} (converted : toLl s = some v) : FitsLong v := by
  obtain ⟨i, unsigned, rfl⟩ := exists_integer_of_toLl converted
  rw [toLl_text unsigned] at converted
  cases converted
  exact fits_wrap64 _

theorem fits_of_extractLonlongField {s key : Bytes} {v : Int}
    (extracted : extractLonlongField s key = some v) : FitsLong v := by
  rw [extractLonlongField_eq] at extracted
  obtain ⟨rest, -, read⟩ := Option.bind_eq_some_iff.mp extracted
  obtain ⟨i, tail, -, -, -, rfl⟩ := leadingLonglong_eq_some.mp read
  exact fits_wrap64 _

/-- A `long long` that is not the least one. -/
def InLongRange (x : Int) : Prop := -2 ^ 63 < x ∧ x < 2 ^ 63

instance (x : Int) : Decidable (InLongRange x) := inferInstanceAs (Decidable (_ ∧ _))

theorem dropWhile_isGap {x : Bytes} (plain : x ⊆ numeralBytes) (nonempty : x ≠ []) (rest : Bytes) :
    (numberPiece x ++ rest).dropWhile isGap = x ++ byte ',' :: rest := by
  have solid : ∀ c ∈ numeralBytes, isGap c = false := by decide +kernel
  obtain ⟨c, cs, rfl⟩ := List.exists_cons_of_ne_nil nonempty
  have colon : isGap (byte ':') = true := by decide
  simp [numberPiece, colon, solid c (plain List.mem_cons_self)]

theorem printInt_ne_nil (x : Int) : printInt x ≠ [] := by
  simp [← printedInt_text, Integer.text, digitText, (printedInt x).nonempty]

theorem extractLonlongField_of_behind {s key rest : Bytes} {x : Int} (fits : FitsLong x)
    (found : behind key s = some (numberPiece (printInt x) ++ rest)) :
    extractLonlongField s key = some x := by
  have stops : NoDigit (byte ',' :: rest) := by
    rintro c ⟨⟩
    decide
  have read := leadingLonglong_text (printedInt_unsigned x) stops
  rw [printedInt_text, printedInt_value, wrap64_of_fits fits] at read
  rw [extractLonlongField_eq, found, Option.bind_some,
    dropWhile_isGap (printInt_subset x) (printInt_ne_nil x)]
  exact read

theorem numberRun_numberPiece {x : Bytes} (plain : x ⊆ numeralBytes) (nonempty : x ≠ [])
    (rest : Bytes) :
    numberRun (numberPiece x ++ rest) = x := by
  have solid : ∀ c ∈ numeralBytes, isNumberChar c = true := by decide +kernel
  have stops : isNumberChar (byte ',') = false := by decide
  rw [numberRun, dropWhile_isGap plain nonempty,
    List.takeWhile_append_of_pos fun c member => solid c (plain member)]
  simp [stops]

/-- The price behind a key is what it converts to. -/
theorem extractDoubleField_of_behind {s key rest x : Bytes} (plain : x ⊆ numeralBytes)
    (nonempty : x ≠ []) (found : behind key s = some (numberPiece x ++ rest)) :
    extractDoubleField s key = stod x := by
  rw [extractDoubleField_eq, found, Option.bind_some, numberRun_numberPiece plain nonempty,
    if_neg nonempty]

theorem extractLonlongField_of_comma {s key rest : Bytes}
    (found : behind key s = some (byte ',' :: rest)) : extractLonlongField s key = none := by
  have comma : isGap (byte ',') = false ∧ byte ',' ≠ byte '-' ∧
      isDecimalDigit (byte ',') = false := by
    decide
  simp [extractLonlongField, found, comma, lonlongLoop]

theorem extractDoubleField_of_comma {s key rest : Bytes}
    (found : behind key s = some (byte ',' :: rest)) : extractDoubleField s key = none := by
  have comma : isGap (byte ',') = false ∧ isNumberChar (byte ',') = false := by decide
  simp [extractDoubleField, found, comma]

theorem extractStringField_of_behind {s key x rest : Bytes} (free : byte '"' ∉ x)
    (found : behind key s = some (bytes ":" ++ byte '"' :: (x ++ byte '"' :: rest))) :
    extractStringField s key = some x := by
  have quote : bytes "\"" = [byte '"'] := rfl
  have colon : byte '"' ∉ bytes ":" := by decide
  rw [extractStringField, found, Option.bind_some, quote, behind_singleton colon, Option.bind_some,
    indexOf_singleton free, Option.map_some, List.take_left]

end EtradePipeline
