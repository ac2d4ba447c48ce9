import Mathlib.Data.Nat.ModEq
import Mathlib.Data.Nat.Bitwise

/-! Ring buffers.  Positions count up without bound and a position is in the slot that it has modulo
the number of slots.  `Holds` says that the slots from a position on hold a list, and follows it
through a write behind the list and a read at its front.  Where the number of slots is a power of
two, a bit mask on wrapping 64-bit indices computes the slot. -/

namespace Kit.Ring

/-! ### Slots -/

theorem slot_ne {N a i j : Nat} (less : i < j) (apart : j < i + N) :
    (a + i) % N ≠ (a + j) % N := by
  intro same
  have equal : i ≡ j [MOD N] := Nat.ModEq.add_left_cancel' a same
  have divides : N ∣ j - i := (Nat.modEq_iff_dvd' less.le).mp equal
  have := Nat.le_of_dvd (by omega) divides
  omega

section Holds

variable {T : Type*} {buffer items : List T} {N first : Nat} {x : T}

/-- In a ring of `N` slots, the slots from position `first` on hold the items. -/
def Holds (buffer : List T) (N first : Nat) (items : List T) : Prop :=
  ∀ i < items.length, buffer[(first + i) % N]? = items[i]?

theorem holds_nil (buffer : List T) (N first : Nat) : Holds buffer N first [] := by
  intro i bound
  cases bound

theorem Holds.write (holds : Holds buffer N first items) (slots : buffer.length = N)
    (room : items.length < N) :
    Holds (buffer.set ((first + items.length) % N) x) N first (items ++ [x]) := by
  intro i bound
  have positive : 0 < N := by omega
  rw [List.length_append, List.length_singleton] at bound
  by_cases last : i = items.length
  · subst last
    rw [List.getElem?_set_self (by rw [slots]; exact Nat.mod_lt _ positive)]
    simp
  · have early : i < items.length := by omega
    have apart := slot_ne (a := first) early (by omega : items.length < i + N)
    rw [List.getElem?_set_ne apart.symm, holds i early, List.getElem?_append_left early]

theorem Holds.head (holds : Holds buffer N first (x :: items)) : buffer[first % N]? = some x := by
  simpa using holds 0 (by simp)

theorem Holds.tail (holds : Holds buffer N first (x :: items)) :
    Holds buffer N (first + 1) items := by
  intro i bound
  have := holds (i + 1) (by simpa using bound)
  rwa [List.getElem?_cons_succ, ← Nat.add_assoc, Nat.add_right_comm] at this

end Holds

/-! ### Bit masks -/

/-- A number of slots that indices of 64 bits can address with a mask. -/
def PowerOfTwo (c : UInt64) : Prop := ∃ k < 64, c.toNat = 2 ^ k

variable {c : UInt64}

theorem PowerOfTwo.pos (power : PowerOfTwo c) : 0 < c.toNat := by
  obtain ⟨k, -, hk⟩ := power
  rw [hk]
  exact Nat.two_pow_pos k

theorem PowerOfTwo.dvd (power : PowerOfTwo c) : c.toNat ∣ 2 ^ 64 := by
  obtain ⟨k, bound, hk⟩ := power
  rw [hk]
  exact Nat.pow_dvd_pow 2 (by omega)

theorem PowerOfTwo.toNat_mask (power : PowerOfTwo c) : (c - 1).toNat = c.toNat - 1 := by
  have := power.pos
  rw [UInt64.toNat_sub_of_le]
  · rfl
  · rw [UInt64.le_iff_toNat_le]
    exact this

theorem PowerOfTwo.toNat_and_mask (power : PowerOfTwo c) (x : UInt64) :
    (x &&& (c - 1)).toNat = x.toNat % c.toNat := by
  rw [UInt64.toNat_and, power.toNat_mask]
  obtain ⟨k, -, hk⟩ := power
  rw [hk, Nat.and_two_pow_sub_one_eq_mod]

/-- Moving an index on, over the wrap of the slots and of the index. -/
theorem PowerOfTwo.toNat_add_and_mask (power : PowerOfTwo c) (x y : UInt64) :
    ((x + y) &&& (c - 1)).toNat = (x.toNat + y.toNat) % c.toNat := by
  rw [power.toNat_and_mask, UInt64.toNat_add, Nat.mod_mod_of_dvd _ power.dvd]

/-- The masked difference of two indices is the distance of their positions. -/
theorem PowerOfTwo.toNat_sub_and_mask (power : PowerOfTwo c) {first last : UInt64} {a n : Nat}
    (less : n < c.toNat) (hfirst : first.toNat = a % c.toNat)
    (hlast : last.toNat = (a + n) % c.toNat) : ((last - first) &&& (c - 1)).toNat = n := by
  rw [power.toNat_and_mask, UInt64.toNat_sub, Nat.mod_mod_of_dvd _ power.dvd]
  have bound := first.toNat_lt
  have start : 2 ^ 64 - first.toNat + last.toNat + first.toNat ≡ n + first.toNat [MOD c.toNat] := by
    have whole : 2 ^ 64 ≡ 0 [MOD c.toNat] := (Nat.modEq_zero_iff_dvd).mpr power.dvd
    calc 2 ^ 64 - first.toNat + last.toNat + first.toNat = 2 ^ 64 + last.toNat := by omega
      _ ≡ 0 + last.toNat [MOD c.toNat] := whole.add_right _
      _ = (a + n) % c.toNat := by rw [zero_add, hlast]
      _ ≡ a + n [MOD c.toNat] := Nat.mod_modEq _ _
      _ = n + a := add_comm a n
      _ ≡ n + a % c.toNat [MOD c.toNat] := (Nat.mod_modEq a _).symm.add_left n
      _ = n + first.toNat := by rw [hfirst]
  have equal : 2 ^ 64 - first.toNat + last.toNat ≡ n [MOD c.toNat] := start.add_right_cancel' _
  exact Nat.mod_eq_of_modEq equal less

end Kit.Ring
