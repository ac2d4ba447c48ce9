import Mathlib.Algebra.Order.Group.Nat
import Mathlib.Data.List.Induction
import Mathlib.Tactic.Ring

/-! Numbers as bytes, the highest first. -/

namespace Kit.BigEndian

/-- The last `w` bytes of a number. -/
def bigEndian : Nat → Nat → List UInt8
  | 0, _ => []
  | w + 1, n => bigEndian w (n / 256) ++ [UInt8.ofNat (n % 256)]

/-- The number of bytes. -/
def ofBigEndian (s : List UInt8) : Nat := s.foldl (fun v c => 256 * v + c.toNat) 0

@[simp] theorem length_bigEndian (w n : Nat) : (bigEndian w n).length = w := by
  induction w generalizing n with
  | zero => rfl
  | succ w ih => rw [bigEndian, List.length_append, ih, List.length_singleton]

theorem ofBigEndian_bigEndian (w n : Nat) : ofBigEndian (bigEndian w n) = n % 256 ^ w := by
  induction w generalizing n with
  | zero =>
    rw [pow_zero, Nat.mod_one]
    rfl
  | succ w ih =>
    have byte : (UInt8.ofNat (n % 256)).toNat = n % 256 := by
      rw [UInt8.toNat_ofNat']
      exact Nat.mod_eq_of_lt (Nat.mod_lt n (by decide))
    have higher : ofBigEndian (bigEndian w (n / 256)) = n / 256 % 256 ^ w := ih (n / 256)
    unfold ofBigEndian at higher ⊢
    rw [bigEndian, List.foldl_append, higher, List.foldl_cons, List.foldl_nil, byte, pow_succ',
      Nat.mod_mul]
    ring

theorem ofBigEndian_lt (s : List UInt8) : ofBigEndian s < 256 ^ s.length := by
  induction s using List.reverseRecOn with
  | nil => decide
  | append_singleton s c ih =>
    have last := c.toNat_lt
    rw [ofBigEndian, List.foldl_append, List.foldl_cons, List.foldl_nil, ← ofBigEndian,
      List.length_append, List.length_singleton, pow_succ']
    omega

end Kit.BigEndian
