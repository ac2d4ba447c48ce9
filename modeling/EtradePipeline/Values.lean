import Mathlib.Algebra.Order.Ring.Rat
import Mathlib.Order.Defs.Unbundled

/-! The values that the engine's code works on: byte strings, 64-bit signed integers, and the
`double`s that hold prices. -/

namespace EtradePipeline

/-- A `std::string`, or the bytes of a buffer. -/
abbrev Bytes := List UInt8

/-- The bytes of an ASCII literal. -/
def bytes (s : String) : Bytes := s.toList.map fun c => UInt8.ofNat c.toNat

/-- The `long long` that `x` wraps to. -/
def wrap64 (x : Int) : Int := Int.bmod x (2 ^ 64)

/-- A `double`: a NaN, an infinity, or a finite number.  Zero has one form here, as the two zeros
compare equal. -/
inductive Double where
  | nan
  | negInf
  | finite (q : ℚ)
  | posInf
  deriving DecidableEq

namespace Double

def isNan : Double → Bool
  | nan => true
  | _ => false

/-- `a < b`, which is false when either is a NaN. -/
def lt : Double → Double → Bool
  | negInf, finite _ | negInf, posInf | finite _, posInf => true
  | finite a, finite b => decide (a < b)
  | _, _ => false

/-- `a > b`, the comparison `std::greater` makes. -/
def gt (a b : Double) : Bool := lt b a

/-- `a <= b`, which is false when either is a NaN. -/
def le (a b : Double) : Bool := !a.isNan && !b.isNan && !lt b a

/-- A price that compares with itself: anything but a NaN. -/
def Comparable (p : Double) : Prop := p.isNan = false

instance (p : Double) : Decidable p.Comparable := inferInstanceAs (Decidable (_ = _))

@[simp] theorem lt_irrefl (a : Double) : lt a a = false := by
  cases a <;> simp [lt]

theorem lt_trans {a b c : Double} (hab : lt a b = true) (hbc : lt b c = true) : lt a c = true := by
  cases a <;> cases b <;> cases c <;> simp_all [lt]
  exact hab.trans hbc

theorem lt_connected {a b : Double} (ha : a.Comparable) (hb : b.Comparable)
    (hab : lt a b = false) (hba : lt b a = false) : a = b := by
  cases a <;> cases b <;> simp_all [lt, Comparable, isNan]
  exact le_antisymm hba hab

theorem comparable_of_lt_left {a b : Double} (h : lt a b = true) : a.Comparable := by
  cases a <;> cases b <;> simp_all [lt, Comparable, isNan]

theorem comparable_of_lt_right {a b : Double} (h : lt a b = true) : b.Comparable := by
  cases a <;> cases b <;> simp_all [lt, Comparable, isNan]

theorem le_of_lt_of_le {a b c : Double} (hab : lt a b = true) (hbc : le b c = true) :
    le a c = true := by
  simp only [le, Bool.and_eq_true, Bool.not_eq_true'] at hbc ⊢
  refine ⟨⟨comparable_of_lt_left hab, hbc.1.2⟩, ?_⟩
  by_contra back
  have := lt_trans (by simpa using back) hab
  rw [this] at hbc
  exact absurd hbc.2 (by decide)

theorem le_of_le_of_lt {a b c : Double} (hab : le a b = true) (hbc : lt b c = true) :
    le a c = true := by
  simp only [le, Bool.and_eq_true, Bool.not_eq_true'] at hab ⊢
  refine ⟨⟨hab.1.1, comparable_of_lt_right hbc⟩, ?_⟩
  by_contra back
  have := lt_trans hbc (by simpa using back)
  rw [this] at hab
  exact absurd hab.2 (by decide)

theorem lt_of_le_of_lt {a b c : Double} (hab : le a b = true) (hbc : lt b c = true) :
    lt a c = true := by
  simp only [le, Bool.and_eq_true, Bool.not_eq_true'] at hab
  by_cases below : lt a b = true
  · exact lt_trans below hbc
  · rw [lt_connected hab.1.1 hab.1.2 (by simpa using below) hab.2]
    exact hbc

theorem lt_of_not_le {a b : Double} (ha : a.Comparable) (hb : b.Comparable) (h : le a b = false) :
    lt b a = true := by
  simp only [Comparable] at ha hb
  simpa [le, ha, hb] using h

instance : IsTrans Double fun a b => lt a b = true := ⟨fun _ _ _ => lt_trans⟩

instance : IsTrans Double fun a b => gt a b = true := ⟨fun _ _ _ hab hbc => lt_trans hbc hab⟩

end Double

end EtradePipeline
