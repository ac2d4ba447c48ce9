import EtradePipeline.Values
import Mathlib.Data.Int.Log
import Mathlib.Data.Rat.Floor

/-! `std::stod`, as the C library describes `strtod`: the longest numeral after leading white space,
in decimal or hexadecimal, or an infinity or a NaN by name, rounded to the nearest `double`.  It
throws when there is no numeral and when the value is out of range. -/

namespace EtradePipeline

/-- The byte of an ASCII character. -/
def byte (c : Char) : UInt8 := UInt8.ofNat c.toNat

/-! ### Rounding -/

/-- The nearest integer, the even one of two that are equally near. -/
def roundHalfEven (q : ℚ) : Int :=
  let below := q.floor
  if q - below < 1 / 2 then below
  else if 1 / 2 < q - below then below + 1
  else if below % 2 = 0 then below
  else below + 1

/-- The nearest number with 53 binary digits, or with fewer below the least normal one. -/
def roundToDouble (q : ℚ) : ℚ :=
  let ulp := max (Int.log 2 |q| - 52) (-1074)
  roundHalfEven (q / 2 ^ ulp) * 2 ^ ulp

/-- The nearest number with 53 binary digits, however small it is. -/
def roundTo53Digits (q : ℚ) : ℚ :=
  let ulp := Int.log 2 |q| - 52
  roundHalfEven (q / 2 ^ ulp) * 2 ^ ulp

/-- The `double` nearest to a number, or `none` where `strtod` reports a range error: on overflow,
and on underflow, where the result is inexact and the number, rounded to 53 digits, is below the
least normal one. -/
def Double.nearest (q : ℚ) : Option Double :=
  let r := roundToDouble q
  if 2 ^ 1024 ≤ |r| then none
  else if |roundTo53Digits q| < 2 ^ (-1022 : Int) ∧ r ≠ q then none
  else some (.finite r)

/-! ### Numerals -/

def isSpace (c : UInt8) : Bool := c = byte ' ' || (9 ≤ c && c ≤ 13)

def toLower (c : UInt8) : UInt8 := if byte 'A' ≤ c && c ≤ byte 'Z' then c + 32 else c

/-- The value of a digit in a radix of at most 16. -/
def digitValue (radix : Nat) (c : UInt8) : Option Nat :=
  let c := toLower c
  let value :=
    if byte '0' ≤ c && c ≤ byte '9' then some (c - byte '0').toNat
    else if byte 'a' ≤ c && c ≤ byte 'f' then some ((c - byte 'a').toNat + 10)
    else none
  value.filter (· < radix)

/-- The digits at the start of a text, and what follows them. -/
def scanDigits (radix : Nat) : Bytes → List Nat × Bytes
  | [] => ([], [])
  | c :: cs =>
    match digitValue radix c with
    | some d => (d :: (scanDigits radix cs).1, (scanDigits radix cs).2)
    | none => ([], c :: cs)

/-- The number that digits denote. -/
def ofDigits (radix : Nat) (digits : List Nat) : Nat := digits.foldl (fun v d => radix * v + d) 0

/-- A sign, and what follows it. -/
def scanSign : Bytes → Bool × Bytes
  | [] => (false, [])
  | c :: cs => if c = byte '-' then (true, cs) else if c = byte '+' then (false, cs)
  else (false, c :: cs)

/-- The exponent behind its mark, zero where there is none. -/
def scanExponent (mark : UInt8) : Bytes → Int
  | [] => 0
  | c :: cs =>
    if toLower c = mark then
      let (negative, cs) := scanSign cs
      let power : Int := ofDigits 10 (scanDigits 10 cs).1
      if negative then -power else power
    else 0

/-- The number that a numeral denotes: digits with an optional point, at least one of them, and an
optional exponent of `base`. -/
def scanNumeral (radix base : Nat) (mark : UInt8) (s : Bytes) : Option ℚ :=
  let (whole, rest) := scanDigits radix s
  let (fraction, rest) :=
    match rest with
    | [] => ([], [])
    | c :: cs => if c = byte '.' then scanDigits radix cs else ([], c :: cs)
  if whole ++ fraction = [] then none
  else some (ofDigits radix (whole ++ fraction) / radix ^ fraction.length *
    base ^ scanExponent mark rest)

/-- A number without its sign, or a named value. -/
def scanMagnitude (s : Bytes) : Option Double :=
  let lower := s.map toLower
  if bytes "inf" <+: lower then some .posInf
  else if bytes "nan" <+: lower then some .nan
  else if bytes "0x" <+: lower then
    some (.finite ((scanNumeral 16 2 (byte 'p') (s.drop 2)).getD 0))
  else (scanNumeral 10 10 (byte 'e') s).map .finite

def Double.neg : Double → Double
  | .nan => .nan
  | .negInf => .posInf
  | .finite q => .finite (-q)
  | .posInf => .negInf

/-- The number that the text starts with, before rounding. -/
def strtod (s : Bytes) : Option Double :=
  let (negative, s) := scanSign (s.dropWhile isSpace)
  (scanMagnitude s).map fun d => if negative then d.neg else d

/-- `std::stod`, or `none` where it throws.  It sees the text up to its first NUL. -/
def stod (s : Bytes) : Option Double :=
  match strtod (s.takeWhile (· ≠ 0)) with
  | some (.finite q) => Double.nearest q
  | d => d

example : stod (bytes " 173.50x") = some (.finite (347 / 2)) ∧ stod (bytes "x") = none := by
  decide +kernel

/-- The nearest `double` is the least normal one, but with 53 digits the number is below it. -/
example : stod (bytes "2.2250738585072012e-308") = none := by decide +kernel

end EtradePipeline
