import Mathlib.Data.List.Nodup

/-! Lists with one position replaced: a projection that the new element shares, the number of
elements that meet a test, a concatenation over the elements, and membership, also where a
projection has distinct values. -/

namespace Kit.ListSet

variable {α β : Type*} {l : List α} {i : Nat} {a b x : α}

theorem map_set_same {f : α → β} (at_ : l[i]? = some a) (same : f b = f a) :
    (l.set i b).map f = l.map f := by
  obtain ⟨bound, rfl⟩ := List.getElem?_eq_some_iff.mp at_
  rw [List.map_set, same, ← List.map_set, List.set_getElem_self]

theorem countP_set (p : α → Bool) (at_ : l[i]? = some a) :
    (l.set i b).countP p + (p a).toNat = l.countP p + (p b).toNat := by
  obtain ⟨bound, rfl⟩ := List.getElem?_eq_some_iff.mp at_
  have counted : p l[i] = true → 0 < l.countP p := fun meets =>
    List.countP_pos_iff.mpr ⟨l[i], List.getElem_mem bound, meets⟩
  rw [List.countP_set bound]
  cases old : p l[i] with
  | true =>
    have := counted old
    cases p b <;> simp <;> omega
  | false => cases p b <;> simp

/-- What a concatenation loses and gains by a replacement. -/
theorem flatMap_set (f : α → List β) (at_ : l[i]? = some a) :
    ((l.set i b).flatMap f ++ f a).Perm (l.flatMap f ++ f b) := by
  induction l generalizing i with
  | nil => simp at at_
  | cons y ys ih =>
    cases i with
    | zero =>
      obtain rfl : y = a := by simpa using at_
      simp only [List.set_cons_zero, List.flatMap_cons, List.append_assoc]
      have last : (f b ++ (ys.flatMap f ++ f y)).Perm (ys.flatMap f ++ f y ++ f b) :=
        List.perm_append_comm
      have first : (ys.flatMap f ++ f y ++ f b).Perm (f y ++ ys.flatMap f ++ f b) :=
        List.perm_append_comm.append_right _
      rw [← List.append_assoc (f y)]
      exact last.trans first
    | succ i =>
      have := ih (i := i) (by simpa using at_)
      simpa only [List.set_cons_succ, List.flatMap_cons, List.append_assoc] using
        this.append_left (f y)

/-- A replacement that adds to what its element gave adds it to the concatenation. -/
theorem flatMap_set_append (f : α → List β) {new : List β} (at_ : l[i]? = some a)
    (more : f b = f a ++ new) : ((l.set i b).flatMap f).Perm (l.flatMap f ++ new) := by
  have moved := flatMap_set (b := b) f at_
  rw [more, ← List.append_assoc] at moved
  have swapped : (l.flatMap f ++ f a ++ new).Perm (l.flatMap f ++ new ++ f a) := by
    simp only [List.append_assoc]
    exact List.perm_append_comm.append_left _
  exact (List.perm_append_right_iff _).mp (moved.trans swapped)

theorem mem_set_or_eq (at_ : l[i]? = some a) (member : x ∈ l) : x ∈ l.set i b ∨ x = a := by
  obtain ⟨j, bound, rfl⟩ := List.mem_iff_getElem.mp member
  by_cases same : i = j
  · subst same
    rw [List.getElem?_eq_getElem bound] at at_
    exact .inr (Option.some.inj at_)
  · left
    refine List.mem_iff_getElem.mpr ⟨j, by rwa [List.length_set], ?_⟩
    rw [List.getElem_set_ne same]

/-- Where a projection has distinct values, the elements after a replacement are the new one and
those before that differ from the replaced one in the projection. -/
theorem mem_set_of_nodup {f : α → β} (distinct : (l.map f).Nodup) (at_ : l[i]? = some a)
    (member : x ∈ l.set i b) : x = b ∨ x ∈ l ∧ f x ≠ f a := by
  obtain ⟨j, bound, rfl⟩ := List.mem_iff_getElem.mp member
  rw [List.length_set] at bound
  rw [List.getElem_set]
  split_ifs with same
  · exact .inl rfl
  · right
    refine ⟨List.getElem_mem bound, fun equal => same ?_⟩
    obtain ⟨bound', rfl⟩ := List.getElem?_eq_some_iff.mp at_
    have hi : i < (l.map f).length := by simpa using bound'
    have hj : j < (l.map f).length := by simpa using bound
    have equal : (l.map f)[i] = (l.map f)[j] := by simpa using equal.symm
    exact (List.Nodup.getElem_inj_iff distinct).mp equal

/-- Where a concatenation has distinct elements, two positions give different ones. -/
theorem notMem_of_nodup_flatMap {f : α → List β} {j : Nat} {y : β} (distinct : (l.flatMap f).Nodup)
    (at_ : l[i]? = some a) (other : l[j]? = some b) (ne : i ≠ j) (member : y ∈ f a) : y ∉ f b := by
  have apart := List.pairwise_iff_getElem.mp (List.nodup_flatMap.mp distinct).2
  obtain ⟨hi, rfl⟩ := List.getElem?_eq_some_iff.mp at_
  obtain ⟨hj, rfl⟩ := List.getElem?_eq_some_iff.mp other
  rcases Nat.lt_or_gt_of_ne ne with below | above
  · exact fun shared => apart i j hi hj below member shared
  · exact fun shared => apart j i hj hi above shared member

end Kit.ListSet
