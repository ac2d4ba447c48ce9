import EtradePipeline.Receiver.Stod
import Mathlib.Data.List.TakeWhile

/-! Decimal integers and numerals as texts, the numbers that they denote, and what `std::stoll` and
`std::stod` make of a text that is one. -/

namespace EtradePipeline

/-! ### Digits -/

def digitByte (d : Fin 10) : UInt8 := byte '0' + UInt8.ofNat d

def digitText (ds : List (Fin 10)) : Bytes := ds.map digitByte

/-- The number that decimal digits denote. -/
def digitsValue (ds : List (Fin 10)) : Nat := ofDigits 10 (ds.map Fin.val)

/-- The text does not start with a decimal digit. -/
def NoDigit (s : Bytes) : Prop := ∀ c ∈ s.head?, digitValue 10 c = none

theorem digitValue_digitByte (d : Fin 10) : digitValue 10 (digitByte d) = some d.val := by
  revert d
  decide

theorem exists_digit {c : UInt8} {v : Nat} (isDigit : digitValue 10 c = some v) :
    ∃ d : Fin 10, c = digitByte d ∧ v = d.val := by
  have all : ∀ n : Fin 256, ∀ v ∈ digitValue 10 (UInt8.ofFin n),
      ∃ d : Fin 10, UInt8.ofFin n = digitByte d ∧ v = d.val := by decide +kernel
  exact all c.toFin v isDigit

theorem scanDigits_digitText (ds : List (Fin 10)) {rest : Bytes} (stops : NoDigit rest) :
    scanDigits 10 (digitText ds ++ rest) = (ds.map Fin.val, rest) := by
  induction ds with
  | nil =>
    cases rest with
    | nil => rfl
    | cons c cs => simp [digitText, scanDigits, stops c rfl]
  | cons d ds ih =>
    simp only [digitText, List.map_cons, List.cons_append] at ih ⊢
    simp [scanDigits, digitValue_digitByte, ih]

theorem exists_digits (s : Bytes) :
    ∃ ds, s = digitText ds ++ (scanDigits 10 s).2 ∧ (scanDigits 10 s).1 = ds.map Fin.val ∧
      NoDigit (scanDigits 10 s).2 := by
  induction s with
  | nil => exact ⟨[], rfl, rfl, by simp [scanDigits, NoDigit]⟩
  | cons c cs ih =>
    cases isDigit : digitValue 10 c with
    | none => exact ⟨[], by simp [scanDigits, isDigit, digitText, NoDigit]⟩
    | some v =>
      obtain ⟨d, rfl, rfl⟩ := exists_digit isDigit
      obtain ⟨ds, taken, values, stops⟩ := ih
      refine ⟨d :: ds, ?_, ?_, ?_⟩
      · simp only [scanDigits, isDigit, digitText, List.map_cons, List.cons_append]
        exact congrArg _ taken
      · simp [scanDigits, isDigit, values]
      · simpa [scanDigits, isDigit] using stops

/-! ### Signs -/

inductive Sign where
  | none
  | plus
  | minus
  deriving DecidableEq

def Sign.text : Sign → Bytes
  | none => []
  | plus => [byte '+']
  | minus => [byte '-']

def Sign.isMinus : Sign → Bool
  | minus => true
  | _ => false

/-- The text does not start with a sign. -/
def NoSign (s : Bytes) : Prop := ∀ c ∈ s.head?, c ≠ byte '-' ∧ c ≠ byte '+'

theorem scanSign_text (sign : Sign) {s : Bytes} (plain : NoSign s) :
    scanSign (sign.text ++ s) = (sign.isMinus, s) := by
  cases sign with
  | none =>
    cases s with
    | nil => rfl
    | cons c cs =>
      obtain ⟨notMinus, notPlus⟩ := plain c rfl
      simp [Sign.text, scanSign, notMinus, notPlus, Sign.isMinus]
  | plus => rfl
  | minus => rfl

theorem exists_sign (s : Bytes) :
    ∃ sign : Sign, s = sign.text ++ (scanSign s).2 ∧ (scanSign s).1 = sign.isMinus := by
  cases s with
  | nil => exact ⟨.none, rfl, rfl⟩
  | cons c cs =>
    by_cases minus : c = byte '-'
    · exact ⟨.minus, by simp [scanSign, minus, Sign.text], by simp [scanSign, minus, Sign.isMinus]⟩
    · by_cases plus : c = byte '+'
      · subst plus
        exact ⟨.plus, rfl, rfl⟩
      · exact ⟨.none, by simp [scanSign, minus, plus, Sign.text],
          by simp [scanSign, minus, plus, Sign.isMinus]⟩

/-! ### Integers -/

/-- A decimal integer: an optional sign and digits. -/
structure Integer where
  sign : Sign
  digits : List (Fin 10)
  nonempty : digits ≠ []

namespace Integer

def text (i : Integer) : Bytes := i.sign.text ++ digitText i.digits

def value (i : Integer) : Int :=
  if i.sign.isMinus then -(digitsValue i.digits : Int) else digitsValue i.digits

end Integer

/-- What is left of a text behind the decimal integer that it starts with. -/
def integerRest (s : Bytes) : Option Bytes :=
  let (digits, rest) := scanDigits 10 (scanSign s).2
  if digits = [] then none else some rest

/-! ### Numerals -/

/-- A decimal numeral: an optional sign, digits with an optional point, and an optional power of ten
behind an `e` or `E`. -/
structure Numeral where
  sign : Sign
  whole : List (Fin 10)
  fraction : Option (List (Fin 10))
  exponent : Option (Bool × Integer)
  nonempty : whole ++ fraction.getD [] ≠ []

namespace Numeral

def fractionText (fraction : Option (List (Fin 10))) : Bytes :=
  fraction.elim [] fun ds => byte '.' :: digitText ds

def exponentText (exponent : Option (Bool × Integer)) : Bytes :=
  exponent.elim [] fun (upper, power) => (if upper then byte 'E' else byte 'e') :: power.text

def text (n : Numeral) : Bytes :=
  n.sign.text ++ (digitText n.whole ++ (fractionText n.fraction ++ exponentText n.exponent))

/-- The number without its sign. -/
def magnitude (n : Numeral) : ℚ :=
  digitsValue (n.whole ++ n.fraction.getD []) / 10 ^ (n.fraction.getD []).length *
    10 ^ n.exponent.elim 0 fun e => e.2.value

def value (n : Numeral) : ℚ := if n.sign.isMinus then -n.magnitude else n.magnitude

end Numeral

/-- The nearest `double`, where it does not overflow. -/
def Numeral.double (n : Numeral) : Double := .finite (roundToDouble n.value)

/-- The nearest `double` is finite. -/
def Numeral.Finite (n : Numeral) : Prop := |roundToDouble n.value| < 2 ^ 1024

/-- The digits behind the point that a text starts with, and what follows. -/
def scanFraction (radix : Nat) (s : Bytes) : List Nat × Bytes :=
  match s with
  | [] => ([], [])
  | c :: cs => if c = byte '.' then scanDigits radix cs else ([], c :: cs)

/-- What is left behind the exponent that a text starts with. -/
def exponentRest : Bytes → Bytes
  | [] => []
  | c :: cs => if toLower c = byte 'e' then (integerRest cs).getD (c :: cs) else c :: cs

/-- What is left of a text behind the decimal numeral that it starts with. -/
def decimalRest (s : Bytes) : Option Bytes :=
  let (whole, rest) := scanDigits 10 (scanSign s).2
  let (fraction, rest) := scanFraction 10 rest
  if whole ++ fraction = [] then none else some (exponentRest rest)

/-- `LLONG_MIN`. -/
def llongMin : Int := -2 ^ 63

/-- `std::stoll`, or `none` where it throws: on a text that does not start with an integer, after
leading white space, and on one out of range. -/
def stoll (s : Bytes) : Option Int :=
  let (negative, s) := scanSign (s.dropWhile isSpace)
  let digits := (scanDigits 10 s).1
  let v : Int := if negative then -(ofDigits 10 digits : Int) else ofDigits 10 digits
  if digits = [] then none
  else if llongMin ≤ v ∧ v < 2 ^ 63 then some v
  else none

/-! ### The bytes of numerals -/

/-- The bytes that occur in numerals. -/
def numeralBytes : Bytes := bytes "0123456789+-.eE"

theorem digitByte_mem (d : Fin 10) : digitByte d ∈ numeralBytes := by
  revert d
  decide

theorem digitText_subset (ds : List (Fin 10)) : digitText ds ⊆ numeralBytes := by
  intro c member
  obtain ⟨d, -, rfl⟩ := List.mem_map.mp member
  exact digitByte_mem d

theorem Sign.text_subset (sign : Sign) : sign.text ⊆ numeralBytes := by
  cases sign <;> decide

theorem Integer.text_subset (i : Integer) : i.text ⊆ numeralBytes :=
  List.append_subset.mpr ⟨i.sign.text_subset, digitText_subset _⟩

namespace Numeral

theorem fractionText_subset (fraction : Option (List (Fin 10))) :
    fractionText fraction ⊆ numeralBytes := by
  cases fraction with
  | none => exact List.nil_subset _
  | some ds => exact List.cons_subset.mpr ⟨by decide, digitText_subset ds⟩

theorem exponentText_subset (exponent : Option (Bool × Integer)) :
    exponentText exponent ⊆ numeralBytes := by
  cases exponent with
  | none => exact List.nil_subset _
  | some e =>
    obtain ⟨upper, power⟩ := e
    refine List.cons_subset.mpr ⟨?_, power.text_subset⟩
    cases upper <;> decide

theorem text_subset (n : Numeral) : n.text ⊆ numeralBytes := by
  refine List.append_subset.mpr ⟨n.sign.text_subset,
    List.append_subset.mpr ⟨digitText_subset _, ?_⟩⟩
  exact List.append_subset.mpr ⟨fractionText_subset _, exponentText_subset _⟩

end Numeral

/-- White space and NUL do not occur in numerals, nor do letters of the named values and of
hexadecimal numerals. -/
theorem numeralBytes_plain : ∀ c ∈ numeralBytes,
    c ≠ 0 ∧ isSpace c = false ∧ toLower c ≠ byte 'i' ∧ toLower c ≠ byte 'n' ∧
      toLower c ≠ byte 'x' := by
  decide +kernel

theorem dropWhile_isSpace {s : Bytes} (plain : s ⊆ numeralBytes) : s.dropWhile isSpace = s := by
  cases s with
  | nil => rfl
  | cons c cs => simp [(numeralBytes_plain c (plain List.mem_cons_self)).2.1]

theorem takeWhile_notNul {s : Bytes} (plain : s ⊆ numeralBytes) : s.takeWhile (· ≠ 0) = s := by
  rw [List.takeWhile_eq_self_iff]
  exact fun c member => decide_eq_true (numeralBytes_plain c (plain member)).1

/-! ### Scans of numerals -/

theorem noDigit_nil : NoDigit [] := by simp [NoDigit]

theorem noSign_digitText {ds : List (Fin 10)} (nonempty : ds ≠ []) (rest : Bytes) :
    NoSign (digitText ds ++ rest) := by
  cases ds with
  | nil => exact absurd rfl nonempty
  | cons d ds =>
    have digit : ∀ d : Fin 10, digitByte d ≠ byte '-' ∧ digitByte d ≠ byte '+' := by decide
    rintro c ⟨⟩
    exact digit d

namespace Integer

variable (i : Integer)

theorem scanSign_text : scanSign i.text = (i.sign.isMinus, digitText i.digits) := by
  have plain := noSign_digitText i.nonempty []
  rw [List.append_nil] at plain
  exact EtradePipeline.scanSign_text i.sign plain

theorem scanDigits_text : scanDigits 10 (digitText i.digits) = (i.digits.map Fin.val, []) := by
  have scanned := scanDigits_digitText i.digits noDigit_nil
  rwa [List.append_nil] at scanned

theorem integerRest_text : integerRest i.text = some [] := by
  simp [integerRest, i.scanSign_text, i.scanDigits_text, i.nonempty]

end Integer

/-- A text is an integer exactly when nothing is left of it behind the integer that it starts
with. -/
theorem integerRest_eq_nil {s : Bytes} : integerRest s = some [] ↔ ∃ i : Integer, i.text = s := by
  constructor
  · intro whole
    obtain ⟨sign, signed, -⟩ := exists_sign s
    obtain ⟨ds, digits, values, -⟩ := exists_digits (scanSign s).2
    simp only [integerRest] at whole
    split_ifs at whole with empty
    rw [values, List.map_eq_nil_iff] at empty
    rw [Option.some.inj whole, List.append_nil] at digits
    exact ⟨⟨sign, ds, empty⟩, by rw [Integer.text, ← digits, ← signed]⟩
  · rintro ⟨i, rfl⟩
    exact i.integerRest_text

theorem stoll_text (i : Integer) :
    stoll i.text = if llongMin ≤ i.value ∧ i.value < 2 ^ 63 then some i.value else none := by
  have digits : i.digits.map Fin.val ≠ [] := by simpa using i.nonempty
  simp only [stoll, dropWhile_isSpace i.text_subset, i.scanSign_text, i.scanDigits_text,
    if_neg digits]
  rfl

namespace Numeral

theorem scanFraction_text (fraction : Option (List (Fin 10))) {rest : Bytes} (stops : NoDigit rest)
    (noPoint : ∀ c ∈ rest.head?, c ≠ byte '.') :
    scanFraction 10 (fractionText fraction ++ rest) = ((fraction.getD []).map Fin.val, rest) := by
  cases fraction with
  | some ds => exact scanDigits_digitText ds stops
  | none =>
    cases rest with
    | nil => rfl
    | cons c cs => simp [fractionText, scanFraction, noPoint c rfl]

theorem exponentText_stops (exponent : Option (Bool × Integer)) :
    NoDigit (exponentText exponent) ∧ ∀ c ∈ (exponentText exponent).head?, c ≠ byte '.' := by
  cases exponent with
  | none => exact ⟨noDigit_nil, by simp [exponentText]⟩
  | some e =>
    obtain ⟨upper, power⟩ := e
    have mark : ∀ upper : Bool, digitValue 10 (if upper then byte 'E' else byte 'e') = none ∧
        (if upper then byte 'E' else byte 'e') ≠ byte '.' := by decide
    constructor <;> rintro c ⟨⟩
    · exact (mark upper).1
    · exact (mark upper).2

theorem fractionText_noDigit (fraction : Option (List (Fin 10))) {rest : Bytes}
    (stops : NoDigit rest) : NoDigit (fractionText fraction ++ rest) := by
  cases fraction with
  | none => exact stops
  | some ds => rintro c ⟨⟩; decide

theorem toLower_mark (upper : Bool) :
    toLower (if upper then byte 'E' else byte 'e') = byte 'e' := by
  cases upper <;> decide

theorem exponentRest_text (exponent : Option (Bool × Integer)) :
    exponentRest (exponentText exponent) = [] := by
  cases exponent with
  | none => rfl
  | some e =>
    obtain ⟨upper, power⟩ := e
    simp [exponentText, exponentRest, toLower_mark upper, power.integerRest_text]

theorem scanExponent_text (exponent : Option (Bool × Integer)) :
    scanExponent (byte 'e') (exponentText exponent) = exponent.elim 0 fun e => e.2.value := by
  cases exponent with
  | none => rfl
  | some e =>
    obtain ⟨upper, power⟩ := e
    simp [exponentText, scanExponent, toLower_mark upper, power.scanSign_text,
      power.scanDigits_text, Integer.value, digitsValue]

/-- The text behind the sign. -/
def body (n : Numeral) : Bytes :=
  digitText n.whole ++ (fractionText n.fraction ++ exponentText n.exponent)

theorem exists_fraction (s : Bytes) :
    ∃ fraction, s = fractionText fraction ++ (scanFraction 10 s).2 ∧
      (scanFraction 10 s).1 = (fraction.getD []).map Fin.val := by
  cases s with
  | nil => exact ⟨none, rfl, rfl⟩
  | cons c cs =>
    by_cases point : c = byte '.'
    · subst point
      obtain ⟨ds, digits, values, -⟩ := exists_digits cs
      exact ⟨some ds, congrArg _ digits, values⟩
    · exact ⟨none, by simp [scanFraction, point, fractionText], by simp [scanFraction, point]⟩

theorem exists_exponent {s : Bytes} (whole : exponentRest s = []) :
    ∃ exponent, exponentText exponent = s := by
  cases s with
  | nil => exact ⟨none, rfl⟩
  | cons c cs =>
    simp only [exponentRest] at whole
    split_ifs at whole with mark
    cases behind : integerRest cs with
    | none => simp [behind] at whole
    | some rest =>
      rw [behind, Option.getD_some] at whole
      obtain ⟨power, rfl⟩ := integerRest_eq_nil.mp (whole ▸ behind)
      have marks : ∀ n : Fin 256, toLower (UInt8.ofFin n) = byte 'e' →
          ∃ upper : Bool, (if upper then byte 'E' else byte 'e') = UInt8.ofFin n := by
            decide +kernel
      obtain ⟨upper, same⟩ := marks c.toFin mark
      exact ⟨some (upper, power), congrArg (· :: _) same⟩

theorem scanNumeral_eq (radix base : Nat) (mark : UInt8) (s : Bytes) :
    scanNumeral radix base mark s =
      if (scanDigits radix s).1 ++ (scanFraction radix (scanDigits radix s).2).1 = [] then none
      else some ((ofDigits radix
          ((scanDigits radix s).1 ++ (scanFraction radix (scanDigits radix s).2).1) : ℚ) /
        radix ^ (scanFraction radix (scanDigits radix s).2).1.length *
        (base : ℚ) ^ scanExponent mark (scanFraction radix (scanDigits radix s).2).2) := by
  unfold scanNumeral scanFraction
  rfl

variable (n : Numeral)

theorem body_noSign : NoSign n.body := by
  unfold body
  by_cases whole : n.whole = []
  · cases fraction : n.fraction with
    | none => exact absurd (by simp [whole, fraction]) n.nonempty
    | some ds =>
      rw [whole]
      rintro c ⟨⟩
      decide
  · exact noSign_digitText whole _

theorem scanSign_text : scanSign n.text = (n.sign.isMinus, n.body) :=
  EtradePipeline.scanSign_text n.sign n.body_noSign

theorem scanDigits_body :
    scanDigits 10 n.body =
      (n.whole.map Fin.val, fractionText n.fraction ++ exponentText n.exponent) :=
  scanDigits_digitText n.whole (fractionText_noDigit _ (exponentText_stops n.exponent).1)

theorem scanFraction_body : scanFraction 10 (fractionText n.fraction ++ exponentText n.exponent) =
    ((n.fraction.getD []).map Fin.val, exponentText n.exponent) :=
  scanFraction_text _ (exponentText_stops n.exponent).1 (exponentText_stops n.exponent).2

theorem scanned_nonempty : n.whole.map Fin.val ++ (n.fraction.getD []).map Fin.val ≠ [] := by
  rw [← List.map_append]
  simpa using n.nonempty

theorem decimalRest_text : decimalRest n.text = some [] := by
  simp only [decimalRest, n.scanSign_text, n.scanDigits_body, n.scanFraction_body,
    if_neg n.scanned_nonempty, exponentRest_text]

theorem scanNumeral_body : scanNumeral 10 10 (byte 'e') n.body = some n.magnitude := by
  rw [scanNumeral_eq, n.scanDigits_body, n.scanFraction_body, if_neg n.scanned_nonempty,
    scanExponent_text, ← List.map_append, List.length_map]
  rfl

/-- The text behind the sign is no named value and not hexadecimal. -/
theorem scanMagnitude_body : scanMagnitude n.body = some (.finite n.magnitude) := by
  have plain : n.body ⊆ numeralBytes :=
    fun c member => n.text_subset (List.mem_append_right _ member)
  have absent : ∀ c ∈ n.body.map toLower, c ≠ byte 'i' ∧ c ≠ byte 'n' ∧ c ≠ byte 'x' := by
    intro c member
    obtain ⟨d, occurs, rfl⟩ := List.mem_map.mp member
    exact (numeralBytes_plain d (plain occurs)).2.2
  have noInf : ¬ bytes "inf" <+: n.body.map toLower := fun named =>
    (absent (byte 'i') (named.subset (by decide))).1 rfl
  have noNan : ¬ bytes "nan" <+: n.body.map toLower := fun named =>
    (absent (byte 'n') (named.subset (by decide))).2.1 rfl
  have noHex : ¬ bytes "0x" <+: n.body.map toLower := fun named =>
    (absent (byte 'x') (named.subset (by decide))).2.2 rfl
  simp only [scanMagnitude, if_neg noInf, if_neg noNan, if_neg noHex, n.scanNumeral_body,
    Option.map_some]

theorem strtod_text : strtod n.text = some (.finite n.value) := by
  simp only [strtod, dropWhile_isSpace n.text_subset, n.scanSign_text, n.scanMagnitude_body,
    Option.map_some, value]
  split_ifs <;> rfl

end Numeral

/-- `std::stod` of a numeral: the nearest `double`. -/
theorem stod_text (n : Numeral) : stod n.text = Double.nearest n.value := by
  rw [stod, takeWhile_notNul n.text_subset, n.strtod_text]

/-- A numeral that converts is finite, and it converts to its `double`. -/
theorem double_of_stod {n : Numeral} {d : Double} (converts : stod n.text = some d) :
    n.Finite ∧ d = n.double := by
  rw [stod_text] at converts
  simp only [Double.nearest] at converts
  split_ifs at converts with overflow small
  exact ⟨not_le.mp overflow, (Option.some.inj converts).symm⟩

/-- A text is a numeral exactly when nothing is left of it behind the numeral that it starts
with. -/
theorem decimalRest_eq_nil {s : Bytes} : decimalRest s = some [] ↔ ∃ n : Numeral, n.text = s := by
  constructor
  · intro whole
    obtain ⟨sign, signed, -⟩ := exists_sign s
    obtain ⟨ds, digits, values, -⟩ := exists_digits (scanSign s).2
    obtain ⟨fraction, pointed, others⟩ := Numeral.exists_fraction (scanDigits 10 (scanSign s).2).2
    simp only [decimalRest] at whole
    split_ifs at whole with empty
    obtain ⟨exponent, powered⟩ := Numeral.exists_exponent (Option.some.inj whole)
    rw [values, others, ← List.map_append, List.map_eq_nil_iff] at empty
    refine ⟨⟨sign, ds, fraction, exponent, empty⟩, ?_⟩
    rw [Numeral.text, powered, ← pointed, ← digits, ← signed]
  · rintro ⟨n, rfl⟩
    exact n.decimalRest_text

end EtradePipeline
