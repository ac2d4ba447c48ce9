import Mathlib.Algebra.Order.Ring.Rat
import Mathlib.Data.List.Infix

/-! JSON texts.  The text is ASCII, so that each byte is a character.  A string is decoded to the
numbers of its UTF-16 units, and a number to the rational that it denotes. -/

namespace Kit.Json

/-- The byte of an ASCII character. -/
def char (c : Char) : UInt8 := UInt8.ofNat c.toNat

inductive Value where
  | null
  | bool (b : Bool)
  | num (x : ℚ)
  | str (units : List Nat)
  | arr (items : List Value)
  | obj (members : List (List Nat × Value))

def isBlank (c : UInt8) : Bool := c = char ' ' || c = char '\t' || c = char '\n' || c = char '\r'

def skip (s : List UInt8) : List UInt8 := s.dropWhile isBlank

/-! ### Strings -/

/-- Where the scan of a string is: between characters, behind a backslash, or before the last `left
+ 1` hexadecimal digits of a unit whose first ones denote `value`. -/
inductive Mode where
  | plain
  | escaped
  | hex (left value : Nat)

def hexValue (c : UInt8) : Option Nat :=
  if char '0' ≤ c ∧ c ≤ char '9' then some (c - char '0').toNat
  else if char 'a' ≤ c ∧ c ≤ char 'f' then some ((c - char 'a').toNat + 10)
  else if char 'A' ≤ c ∧ c ≤ char 'F' then some ((c - char 'A').toNat + 10)
  else none

/-- The unit that a character behind a backslash stands for. -/
def escapeUnit (c : UInt8) : Option Nat :=
  if c = char '"' ∨ c = char '\\' ∨ c = char '/' then some c.toNat
  else if c = char 'b' then some 8
  else if c = char 'f' then some 12
  else if c = char 'n' then some 10
  else if c = char 'r' then some 13
  else if c = char 't' then some 9
  else none

/-- The units of a string up to its closing quote, and what follows. -/
def scanString : Mode → List UInt8 → Option (List Nat × List UInt8)
  | _, [] => none
  | .plain, c :: cs =>
    if c = char '"' then some ([], cs)
    else if c = char '\\' then scanString .escaped cs
    else if c < 32 then none
    else (scanString .plain cs).map fun (units, rest) => (c.toNat :: units, rest)
  | .escaped, c :: cs =>
    if c = char 'u' then scanString (.hex 3 0) cs
    else
      match escapeUnit c with
      | none => none
      | some unit => (scanString .plain cs).map fun (units, rest) => (unit :: units, rest)
  | .hex left value, c :: cs =>
    match hexValue c with
    | none => none
    | some d =>
      match left with
      | 0 => (scanString .plain cs).map fun (units, rest) => ((16 * value + d) :: units, rest)
      | left + 1 => scanString (.hex left (16 * value + d)) cs

/-! ### Numbers -/

def isDigit (c : UInt8) : Bool := char '0' ≤ c && c ≤ char '9'

/-- The number that decimal digits denote. -/
def ofDigits (s : List UInt8) : Nat := s.foldl (fun v c => 10 * v + (c - char '0').toNat) 0

/-- The digits behind a point, when there is one. -/
def fraction (s : List UInt8) : Option (List UInt8 × List UInt8) :=
  if s.head? = some (char '.') then
    let part := s.tail.takeWhile isDigit
    if part = [] then none else some (part, s.tail.dropWhile isDigit)
  else some ([], s)

/-- The power of ten behind an `e`, when there is one. -/
def exponent (s : List UInt8) : Option (Int × List UInt8) :=
  if s.head? = some (char 'e') ∨ s.head? = some (char 'E') then
    let negative : Bool := s.tail.head? = some (char '-')
    let s := if negative ∨ s.tail.head? = some (char '+') then s.tail.tail else s.tail
    let power := s.takeWhile isDigit
    if power = [] then none
    else some (if negative then -(ofDigits power : Int) else ofDigits power, s.dropWhile isDigit)
  else some (0, s)

/-- The unsigned number that a text starts with, and what follows.  It has no needless zero before
it. -/
def magnitude (s : List UInt8) : Option (ℚ × List UInt8) :=
  let whole := s.takeWhile isDigit
  if whole = [] ∨ (whole.head? = some (char '0') ∧ whole ≠ [char '0']) then none
  else do
    let (part, s) ← fraction (s.dropWhile isDigit)
    let (power, s) ← exponent s
    return (ofDigits (whole ++ part) / 10 ^ part.length * 10 ^ power, s)

/-- The number that a text starts with, and what follows. -/
def number (s : List UInt8) : Option (ℚ × List UInt8) :=
  if s.head? = some (char '-') then (magnitude s.tail).map fun (x, rest) => (-x, rest)
  else magnitude s

/-! ### Values -/

/-- What follows a word that a text starts with. -/
def keyword (word : List UInt8) (v : Value) (s : List UInt8) : Option (Value × List UInt8) :=
  if word <+: s then some (v, s.drop word.length) else none

/-- The items of an array up to its closing bracket. -/
def items (value : List UInt8 → Option (Value × List UInt8)) :
    Nat → List UInt8 → Option (List Value × List UInt8)
  | 0, _ => none
  | fuel + 1, s => do
    let (v, s) ← value s
    let s := skip s
    if s.head? = some (char ']') then return ([v], s.tail)
    else if s.head? = some (char ',') then
      let (vs, s) ← items value fuel (skip s.tail)
      return (v :: vs, s)
    else none

/-- The members of an object up to its closing brace. -/
def members (value : List UInt8 → Option (Value × List UInt8)) :
    Nat → List UInt8 → Option (List (List Nat × Value) × List UInt8)
  | 0, _ => none
  | fuel + 1, s =>
    if s.head? = some (char '"') then do
      let (key, s) ← scanString .plain s.tail
      let s := skip s
      if s.head? = some (char ':') then
        let (v, s) ← value (skip s.tail)
        let s := skip s
        if s.head? = some (char '\x7d') then return ([(key, v)], s.tail)
        else if s.head? = some (char ',') then
          let (ms, s) ← members value fuel (skip s.tail)
          return ((key, v) :: ms, s)
        else none
      else none
    else none

/-- The value that a text starts with, and what follows. -/
def value : Nat → List UInt8 → Option (Value × List UInt8)
  | 0, _ => none
  | fuel + 1, s =>
    match s.head? with
    | none => none
    | some c =>
      if c = char '"' then (scanString .plain s.tail).map fun (units, rest) => (.str units, rest)
      else if c = char '\x7b' then
        let s := skip s.tail
        if s.head? = some (char '\x7d') then some (.obj [], s.tail)
        else (members (value fuel) fuel s).map fun (ms, rest) => (.obj ms, rest)
      else if c = char '[' then
        let s := skip s.tail
        if s.head? = some (char ']') then some (.arr [], s.tail)
        else (items (value fuel) fuel s).map fun (vs, rest) => (.arr vs, rest)
      else if c = char 't' then keyword ("true".toList.map char) (.bool true) s
      else if c = char 'f' then keyword ("false".toList.map char) (.bool false) s
      else if c = char 'n' then keyword ("null".toList.map char) .null s
      else (number s).map fun (x, rest) => (.num x, rest)

/-- The value of a JSON text.  Each level of a value takes a character at least. -/
def parse (text : List UInt8) : Option Value := do
  let (v, rest) ← value (text.length + 1) (skip text)
  if skip rest = [] then return v else none

/-- The value under a key, the last one when there are several. -/
def get? (key : List Nat) (ms : List (List Nat × Value)) : Option Value :=
  (ms.reverse.find? fun m => m.1 = key).map Prod.snd

end Kit.Json
