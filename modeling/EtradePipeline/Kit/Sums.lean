import Mathlib.Algebra.Order.BigOperators.Group.List

/-! Sums over lists: over what an optional projection keeps, and over part of a list. -/

namespace Kit.Sums

variable {α β M : Type*} {l l' : List α}

/-- Where an element counts as much as what it is projected to, and nothing when it is dropped. -/
theorem sum_filterMap [AddMonoid M] {f : α → M} {g : α → Option β} {h : β → M}
    (same : ∀ x ∈ l, f x = (g x).elim 0 h) : (l.map f).sum = ((l.filterMap g).map h).sum := by
  induction l with
  | nil => rfl
  | cons x l ih =>
    obtain ⟨first, others⟩ := List.forall_mem_cons.mp same
    rw [List.map_cons, List.sum_cons, ih others, first]
    cases kept : g x with
    | none => rw [List.filterMap_cons_none kept, Option.elim_none, zero_add]
    | some y => rw [List.filterMap_cons_some kept, Option.elim_some, List.map_cons, List.sum_cons]

/-- Some of the elements, each once, count no more than all. -/
theorem sum_le_of_subset [AddCommMonoid M] [PartialOrder M] [IsOrderedAddMonoid M] {f : α → M}
    (distinct : l.Nodup) (sub : l ⊆ l') (nonneg : ∀ x ∈ l', 0 ≤ f x) :
    (l.map f).sum ≤ (l'.map f).sum := by
  obtain ⟨part, perm, within⟩ := List.subperm_of_subset distinct sub
  rw [← (perm.map f).sum_eq]
  refine (within.map f).sum_le_sum fun y member => ?_
  obtain ⟨x, hx, rfl⟩ := List.mem_map.mp member
  exact nonneg x hx

end Kit.Sums
