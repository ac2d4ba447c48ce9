import EtradePipeline.Replay.Extractors

/-! The readers of decimal integers.  Neither tests the range of what it adds up, so that both are
exact for the numerals below `2 ^ 63` only, and the latency of an event only for the timestamps that
are not too far below 0. -/

namespace EtradePipeline

open Kit.Search (behind)

/-! ### What the readers compute -/

/-- The results of both digit loops over the digits that a text starts with, before they wrap
around: `v * 10`, and this with the digit added. -/
def digitResults : Int → Bytes → List Int
  | _, [] => []
  | v, c :: cs =>
    if isDecimalDigit c then
      let tens := v * 10
      let next := wrap64 tens + (c - byte '0').toNat
      tens :: next :: digitResults (wrap64 next) cs
    else []

/-- The results of `to_ll`, with the negation last. -/
def toLlResults (sv : Bytes) : List Int :=
  match sv with
  | [] => []
  | c :: cs =>
    if c = byte '-' then
      if cs = [] then [] else digitResults 0 cs ++ ((toLlDigits 0 cs).map fun v => -v).toList
    else digitResults 0 (c :: cs)

/-- The results of `extract_lonlong_field`, with the negation last. -/
def extractLonlongResults (s key : Bytes) : List Int :=
  match behind key s with
  | none => []
  | some rest =>
    let rest := rest.dropWhile isGap
    let neg : Bool := rest.head? = some (byte '-')
    let digits := if neg then rest.drop 1 else rest
    digitResults 0 digits ++ if neg then ((lonlongLoop 0 false digits).map fun v => -v).toList
      else []

/-! ### Numerals -/

/-- The number that the digits denote that a text starts with, behind a minus sign or without
one. -/
def numeralValue (s : Bytes) : Nat := ofDigits 10 (scanDigits 10 (behindMinus s)).1

theorem le_foldl_digits (ds : List (Fin 10)) (v : Nat) :
    v ≤ ds.foldl (fun v d => 10 * v + d.val) v := by
  induction ds generalizing v with
  | nil => exact le_refl v
  | cons d ds ih => exact le_trans (by omega) (ih (10 * v + d.val))

theorem fits_natCast {n : Nat} (small : n < 2 ^ 63) : FitsLong n :=
  ⟨by unfold llongMin; omega, by omega⟩

theorem digitResults_fit (ds : List (Fin 10)) {v : Nat} (small : v < 2 ^ 63) {rest : Bytes}
    (stops : NoDigit rest) :
    (∀ x ∈ digitResults v (digitText ds ++ rest), FitsLong x) ↔
      ds.foldl (fun v d => 10 * v + d.val) v < 2 ^ 63 := by
  induction ds generalizing v with
  | nil =>
    have none : digitResults v rest = [] := by
      cases rest with
      | nil => rfl
      | cons c cs => simp [digitResults, isDecimalDigit_of_none (stops c rfl)]
    simpa [digitText, none] using small
  | cons d ds ih =>
    have next : digitResults v (digitText (d :: ds) ++ rest) = ((v : Int) * 10) ::
        (wrap64 ((v : Int) * 10) + d.val) ::
          digitResults (wrap64 (wrap64 ((v : Int) * 10) + d.val)) (digitText ds ++ rest) := by
      rw [digitText, List.map_cons, List.cons_append, digitResults,
        if_pos (isDecimalDigit_digitByte d), (digit_of_byte d).2]
      rfl
    rw [next, List.forall_mem_cons, List.forall_mem_cons, List.foldl_cons]
    -- A number that is out of range stays so with more digits, and one of these two results is too.
    by_cases fits : 10 * v + d.val < 2 ^ 63
    · have tens : FitsLong ((v : Int) * 10) := by
        exact_mod_cast @fits_natCast (v * 10) (by omega)
      have sum : (v : Int) * 10 + d.val = (10 * v + d.val : Nat) := by push_cast; ring
      have whole := fits_natCast fits
      rw [wrap64_of_fits tens, sum, wrap64_of_fits whole, ih fits, and_iff_right tens,
        and_iff_right whole]
    · refine iff_of_false ?_ fun below => fits ((le_foldl_digits ds _).trans_lt below)
      rintro ⟨tens, sum, -⟩
      rw [wrap64_of_fits tens] at sum
      have below := sum.2
      omega

theorem digitResults_fit_iff (s : Bytes) :
    (∀ x ∈ digitResults 0 s, FitsLong x) ↔ ofDigits 10 (scanDigits 10 s).1 < 2 ^ 63 := by
  obtain ⟨ds, text, values, stops⟩ := exists_digits s
  rw [values, ← digitsValue, digitsValue_eq_foldl]
  have fit := @digitResults_fit ds 0 (by decide) _ stops
  rwa [← text] at fit

theorem negation_fits {n : Nat} (small : n < 2 ^ 63) : FitsLong (-wrap64 n) := by
  rw [wrap64_of_fits (fits_natCast small)]
  exact ⟨by unfold llongMin; omega, by omega⟩

theorem value_fits {i : Integer} (small : digitsValue i.digits < 2 ^ 63) : FitsLong i.value := by
  unfold Integer.value FitsLong llongMin
  split_ifs <;> omega

theorem numeralValue_text {i : Integer} (unsigned : i.sign ≠ .plus) {tail : Bytes}
    (stops : NoDigit tail) :
    numeralValue (i.text ++ tail) = digitsValue i.digits := by
  rw [numeralValue, behindMinus_text unsigned, scanDigits_digitText _ stops, digitsValue]

/-! ### `to_ll` -/

theorem toLl_eq_some {s : Bytes} {v : Int} :
    toLl s = some v ↔ ∃ i : Integer, i.sign ≠ .plus ∧ i.text = s ∧ v = wrap64 i.value := by
  constructor
  · intro converted
    obtain ⟨i, unsigned, rfl⟩ := exists_integer_of_toLl converted
    exact ⟨i, unsigned, rfl, Option.some.inj (converted.symm.trans (toLl_text unsigned))⟩
  · rintro ⟨i, unsigned, rfl, rfl⟩
    exact toLl_text unsigned

theorem toLlDigits_value {s : Bytes} {v : Int} (converted : toLlDigits 0 s = some v) :
    v = wrap64 (ofDigits 10 (scanDigits 10 s).1 : Nat) := by
  obtain ⟨ds, rfl⟩ := exists_digits_of_toLlDigits converted
  have value : toLlDigits 0 (digitText ds) = _ := toLlDigits_text ds 0
  have scanned := scanDigits_digitText ds noDigit_nil
  rw [List.append_nil] at scanned
  rw [value, ← digitsValue_eq_foldl] at converted
  rw [scanned]
  exact (Option.some.inj converted).symm

theorem toLlResults_fit (s : Bytes) :
    (∀ x ∈ toLlResults s, FitsLong x) ↔ numeralValue s < 2 ^ 63 := by
  rw [numeralValue, ← digitResults_fit_iff]
  cases s with
  | nil => rfl
  | cons c cs =>
    by_cases minus : c = byte '-'
    · subst minus
      have digits : behindMinus (byte '-' :: cs) = cs := rfl
      rw [toLlResults, if_pos rfl, digits]
      by_cases none : cs = []
      · rw [if_pos none, none]
        rfl
      rw [if_neg none, List.forall_mem_append]
      refine ⟨And.left, fun fit => ⟨fit, ?_⟩⟩
      intro x negated
      obtain ⟨v, converted, rfl⟩ := Option.map_eq_some_iff.mp (Option.mem_toList.mp negated)
      rw [toLlDigits_value converted]
      exact negation_fits ((digitResults_fit_iff cs).mp fit)
    · have digits : behindMinus (c :: cs) = c :: cs :=
        if_neg fun same => minus (Option.some.inj same)
      rw [toLlResults, if_neg minus, digits]

/-! ### `extract_lonlong_field` -/

theorem extractLonlongResults_fit {s key rest : Bytes} (found : behind key s = some rest) :
    (∀ x ∈ extractLonlongResults s key, FitsLong x) ↔
      numeralValue (rest.dropWhile isGap) < 2 ^ 63 := by
  simp only [extractLonlongResults, found, decide_eq_true_eq]
  rw [numeralValue, ← digitResults_fit_iff, ← behindMinus, List.forall_mem_append]
  refine ⟨And.left, fun fit => ⟨fit, ?_⟩⟩
  intro x negated
  split_ifs at negated with minus
  · obtain ⟨v, looped, rfl⟩ := Option.map_eq_some_iff.mp (Option.mem_toList.mp negated)
    rw [lonlongLoop_eq] at looped
    split_ifs at looped
    rw [← Option.some.inj looped]
    exact negation_fits ((digitResults_fit_iff _).mp fit)
  · cases negated

/-! ### Exactness -/

/-- `to_ll` converts the integers of its type, each to its value, and nothing else, and computes
nothing beyond its type. -/
structure ToLlExact (s : Bytes) : Prop where
  value : ∀ v, toLl s = some v ↔
    ∃ i : Integer, i.sign ≠ .plus ∧ i.text = s ∧ FitsLong i.value ∧ v = i.value
  fits : ∀ x ∈ toLlResults s, FitsLong x

/-- `extract_lonlong_field` gives the value of the numeral behind the key, where its type has it. -/
structure ExtractLonlongExact (s key : Bytes) : Prop where
  value : ∀ v, extractLonlongField s key = some v ↔
    ∃ (i : Integer) (rest tail : Bytes), i.sign ≠ .plus ∧ behind key s = some rest ∧
      rest.dropWhile isGap = i.text ++ tail ∧ NoDigit tail ∧ FitsLong i.value ∧ v = i.value
  fits : ∀ x ∈ extractLonlongResults s key, FitsLong x

/-- The timestamp is read exactly, and so is the latency computed. -/
structure LatencyExact (timestamp : Bytes) (recvTsMs : Int) : Prop where
  reading : ToLlExact timestamp
  latency : ∀ (fields : Fields) (source : Source), toLl timestamp = some fields.msgTs →
    FitsLong (recvTsMs - fields.msgTs) ∧
      (buildEvent fields recvTsMs source).latencyMs = recvTsMs - fields.msgTs

theorem toLlExact_iff (s : Bytes) : ToLlExact s ↔ numeralValue s < 2 ^ 63 := by
  refine ⟨fun exact_ => (toLlResults_fit s).mp exact_.fits, fun small =>
    ⟨fun v => ?_, (toLlResults_fit s).mpr small⟩⟩
  rw [toLl_eq_some]
  refine exists_congr fun i => and_congr_right fun unsigned => and_congr_right ?_
  rintro rfl
  have value := numeralValue_text unsigned noDigit_nil
  rw [List.append_nil] at value
  have fits := value_fits (value ▸ small)
  rw [wrap64_of_fits fits, and_iff_right fits]

theorem extractLonlongExact_iff (s key : Bytes) :
    ExtractLonlongExact s key ↔
      ∀ rest, behind key s = some rest → numeralValue (rest.dropWhile isGap) < 2 ^ 63 := by
  constructor
  · exact fun exact_ rest found => (extractLonlongResults_fit found).mp exact_.fits
  · intro small
    cases found : behind key s with
    | none =>
      refine ⟨fun v => ?_, by simp [extractLonlongResults, found]⟩
      simp [extractLonlongField, found]
    | some rest =>
      refine ⟨fun v => ?_, (extractLonlongResults_fit found).mpr (small rest found)⟩
      simp only [extractLonlongField_eq, found, Option.bind_some, leadingLonglong_eq_some]
      constructor
      · rintro ⟨i, tail, unsigned, text, stops, rfl⟩
        have fits := value_fits (numeralValue_text unsigned stops ▸ text ▸ small rest found)
        exact ⟨i, rest, tail, unsigned, rfl, text, stops, fits, wrap64_of_fits fits⟩
      · rintro ⟨i, rest, tail, unsigned, ⟨⟩, text, stops, fits, rfl⟩
        exact ⟨i, tail, unsigned, text, stops, (wrap64_of_fits fits).symm⟩

theorem latencyExact_iff (t : Bytes) {recvTsMs : Int} (nonneg : 0 ≤ recvTsMs) :
    LatencyExact t recvTsMs ↔
      numeralValue t < 2 ^ 63 ∧ ∀ i : Integer, i.sign ≠ .plus → i.text = t →
        recvTsMs < 2 ^ 63 + i.value := by
  constructor
  · rintro ⟨reading, latency⟩
    refine ⟨(toLlExact_iff t).mp reading, fun i unsigned text => ?_⟩
    have small := (toLlExact_iff t).mp reading
    rw [← text, ← List.append_nil i.text, numeralValue_text unsigned noDigit_nil] at small
    have read := (reading.value i.value).mpr ⟨i, unsigned, text, value_fits small, rfl⟩
    have below : recvTsMs - i.value < 2 ^ 63 :=
      (latency ⟨0, i.value, [], .nan, 0⟩ ⟨(0, 0, 0, 0), 0⟩ read).1.2
    omega
  · rintro ⟨small, below⟩
    have reading := (toLlExact_iff t).mpr small
    refine ⟨reading, fun fields source read => ?_⟩
    obtain ⟨i, unsigned, text, fits, value⟩ := (reading.value fields.msgTs).mp read
    have fits : FitsLong (recvTsMs - fields.msgTs) := by
      have less := below i unsigned text
      have most := fits.2
      exact ⟨by unfold llongMin; omega, by omega⟩
    exact ⟨fits, wrap64_of_fits fits⟩

/-- The readers are exact for the numerals below `2 ^ 63`, and the latency for the timestamps among
them that are less than `2 ^ 63` before the clock. -/
theorem integer_readers_exact_iff (sv s key timestamp : Bytes) {recvTsMs : Int}
    (nonneg : 0 ≤ recvTsMs) :
    (ToLlExact sv ↔ numeralValue sv < 2 ^ 63) ∧
    (ExtractLonlongExact s key ↔
      ∀ rest, behind key s = some rest → numeralValue (rest.dropWhile isGap) < 2 ^ 63) ∧
    (LatencyExact timestamp recvTsMs ↔
      numeralValue timestamp < 2 ^ 63 ∧
        ∀ i : Integer, i.sign ≠ .plus → i.text = timestamp → recvTsMs < 2 ^ 63 + i.value) :=
  ⟨toLlExact_iff sv, extractLonlongExact_iff s key, latencyExact_iff timestamp nonneg⟩

theorem integer_readers_exact_iff_at_samples :
    ToLlExact (bytes "-12") ∧ ExtractLonlongExact (bytes "\"seq\": 7,") (bytes "\"seq\"") ∧
      LatencyExact (bytes "1000") 1005 := by
  have readers := integer_readers_exact_iff (bytes "-12") (bytes "\"seq\": 7,") (bytes "\"seq\"")
    (bytes "1000") (by decide : (0 : Int) ≤ 1005)
  refine ⟨readers.1.mpr (by decide), readers.2.1.mpr ?_, readers.2.2.mpr ⟨by decide, ?_⟩⟩
  · intro rest found
    have text : behind (bytes "\"seq\"") (bytes "\"seq\": 7,") = some (bytes ": 7,") := by
      decide +kernel
    cases text.symm.trans found
    decide
  · intro i unsigned text
    have value := numeralValue_text unsigned noDigit_nil
    rw [List.append_nil, text] at value
    have thousand : numeralValue (bytes "1000") = 1000 := by decide
    have bounds : -(digitsValue i.digits : Int) ≤ i.value := by
      unfold Integer.value
      split_ifs <;> omega
    omega

/-- A number just out of range is accepted as the least `long long`, and so it is from a record.  Of
a timestamp in range the latency can be out of it. -/
theorem integer_readers_wrap :
    toLl (bytes "9223372036854775808") = some (-2 ^ 63) ∧
      ¬ ToLlExact (bytes "9223372036854775808") ∧
    extractLonlongField (bytes "\"seq\":9223372036854775808,") (bytes "\"seq\"") = some (-2 ^ 63) ∧
    ¬ ExtractLonlongExact (bytes "\"seq\":9223372036854775808,") (bytes "\"seq\"") ∧
    toLl (bytes "-9223372036854775807") = some (-(2 ^ 63 - 1)) ∧
    ¬ LatencyExact (bytes "-9223372036854775807") 1005 := by
  have beyond : ¬ FitsLong (2 ^ 63) := by decide
  have read : toLl (bytes "-9223372036854775807") = some (-(2 ^ 63 - 1)) := by decide +kernel
  refine ⟨by decide +kernel, fun exact_ => beyond (exact_.fits _ (by decide +kernel)),
    by decide +kernel,
    fun exact_ => beyond (exact_.fits _ (by decide +kernel)), read, fun exact_ => ?_⟩
  have fits := (exact_.latency ⟨0, -(2 ^ 63 - 1), [], .nan, 0⟩ ⟨(127, 0, 0, 1), 9000⟩ read).1
  exact absurd fits (by decide)

end EtradePipeline
