import Mathlib.Algebra.Order.BigOperators.Group.List
import Mathlib.Algebra.Order.Group.Nat
import Mathlib.Data.List.Basic

/-! Two ways of mapping the elements of a list to lists.  Where one gives no more than the other for
each element, the concatenations agree only if the two agree on every element.  And a concatenation
of groups, each with a name of its own on its elements, from which each group is got back by its
name. -/

namespace Kit.FlatMap

variable {α β : Type*} {f g : α → List β} {xs : List α}

theorem length_flatMap_le (le : ∀ x ∈ xs, (f x).length ≤ (g x).length) :
    (xs.flatMap f).length ≤ (xs.flatMap g).length := by
  rw [List.length_flatMap, List.length_flatMap]
  exact List.sum_le_sum le

theorem flatMap_eq_iff (le : ∀ x ∈ xs, (f x).length ≤ (g x).length) :
    xs.flatMap f = xs.flatMap g ↔ ∀ x ∈ xs, f x = g x := by
  constructor
  · intro same
    induction xs with
    | nil => exact nofun
    | cons x xs ih =>
      obtain ⟨first, others⟩ := List.forall_mem_cons.mp le
      rw [List.flatMap_cons, List.flatMap_cons] at same
      have total := congrArg List.length same
      have rest := length_flatMap_le others
      rw [List.length_append, List.length_append] at total
      obtain ⟨head, tail⟩ := List.append_inj same (by omega)
      exact List.forall_mem_cons.mpr ⟨head, ih others tail⟩
  · exact fun same => List.flatMap_congr same

theorem filter_flatten_named [DecidableEq β] {key : α → β} {name : ℕ → β}
    (distinct : name.Injective)
    {groups : List (List α)} (named : ∀ k g, groups[k]? = some g → ∀ x ∈ g, key x = name k)
    (k : ℕ) :
    groups.flatten.filter (fun x => key x = name k) = groups[k]?.getD [] := by
  induction groups generalizing name k with
  | nil => rfl
  | cons g groups ih =>
    have first : ∀ x ∈ g, key x = name 0 := named 0 g rfl
    have apart : Function.Injective fun j => name (j + 1) :=
      fun i j same => Nat.succ.inj (distinct same)
    have later : ∀ j, groups.flatten.filter (fun x => key x = name (j + 1)) = groups[j]?.getD [] :=
      ih apart fun j g' at_ => named (j + 1) g' at_
    rw [List.flatten_cons, List.filter_append]
    cases k with
    | zero =>
      have own : g.filter (fun x => key x = name 0) = g :=
        List.filter_eq_self.mpr fun x member => decide_eq_true (first x member)
      have none : groups.flatten.filter (fun x => key x = name 0) = [] := by
        refine List.filter_eq_nil_iff.mpr fun x member => ?_
        obtain ⟨g', listed, inside⟩ := List.mem_flatten.mp member
        obtain ⟨j, at_⟩ := List.mem_iff_getElem?.mp listed
        rw [decide_eq_true_eq, named (j + 1) g' at_ x inside]
        exact fun same => Nat.succ_ne_zero j (distinct same)
      rw [own, none, List.append_nil, List.getElem?_cons_zero, Option.getD_some]
    | succ k =>
      have none : g.filter (fun x => key x = name (k + 1)) = [] := by
        refine List.filter_eq_nil_iff.mpr fun x member => ?_
        rw [decide_eq_true_eq, first x member]
        exact fun same => Nat.succ_ne_zero k (distinct same).symm
      rw [none, List.nil_append, later k, List.getElem?_cons_succ]

end Kit.FlatMap
