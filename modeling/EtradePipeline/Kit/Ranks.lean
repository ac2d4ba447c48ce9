import Mathlib.Data.List.Sort
import Mathlib.Order.Basic

/-! How many values of a sorted list are on either side of the one at an index. -/

namespace Kit.Ranks

variable {α : Type*} [LinearOrder α] {s : List α} {i : Nat} {v : α}

theorem succ_le_countP (ascending : s.Pairwise (· ≤ ·)) (at_ : s[i]? = some v) :
    i + 1 ≤ s.countP (fun x => x ≤ v) := by
  induction s generalizing i with
  | nil => cases at_
  | cons x s ih =>
    obtain ⟨first, others⟩ := List.pairwise_cons.mp ascending
    cases i with
    | zero =>
      cases at_
      rw [List.countP_cons_of_pos (by simp)]
      omega
    | succ i =>
      have later := ih others at_
      have least : x ≤ v := first v (List.mem_of_getElem? at_)
      rw [List.countP_cons_of_pos (by simpa using least)]
      omega

theorem countP_le (ascending : s.Pairwise (· ≤ ·)) (at_ : s[i]? = some v) :
    s.countP (fun x => x < v) ≤ i := by
  induction s generalizing i with
  | nil => cases at_
  | cons x s ih =>
    obtain ⟨first, others⟩ := List.pairwise_cons.mp ascending
    cases i with
    | zero =>
      cases at_
      rw [Nat.le_zero, List.countP_eq_zero]
      refine List.forall_mem_cons.mpr ⟨by simp, fun y member => ?_⟩
      simpa using first y member
    | succ i =>
      have later := ih others at_
      rw [List.countP_cons]
      split_ifs <;> omega

end Kit.Ranks
