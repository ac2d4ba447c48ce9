import EtradePipeline.Kit.Getline
import Mathlib.Data.List.DropRight

/-! The fields of a text between delimiters, the first and the last included. -/

namespace Kit.Split

variable {α : Type*} [DecidableEq α] {d : α}

theorem splitOn_free (s : List α) : ∀ f ∈ s.splitOn d, d ∉ f := by
  induction s with
  | nil => simp [List.splitOn_nil]
  | cons c cs ih =>
    obtain ⟨first, more, split⟩ := List.exists_cons_of_ne_nil (List.splitOn_ne_nil d cs)
    rw [split] at ih
    obtain ⟨free, others⟩ := List.forall_mem_cons.mp ih
    rw [List.splitOn_cons_eq_if_modifyHead, split]
    split_ifs with same
    · exact List.forall_mem_cons.mpr ⟨List.not_mem_nil, ih⟩
    · refine List.forall_mem_cons.mpr ⟨?_, others⟩
      rw [List.mem_cons, not_or]
      exact ⟨fun is => same (by simp [is]), free⟩

theorem splitOn_subset (s : List α) : ∀ f ∈ s.splitOn d, f ⊆ s := by
  induction s with
  | nil => simp [List.splitOn_nil]
  | cons c cs ih =>
    obtain ⟨first, more, split⟩ := List.exists_cons_of_ne_nil (List.splitOn_ne_nil d cs)
    rw [split] at ih
    obtain ⟨part, others⟩ := List.forall_mem_cons.mp ih
    have later : ∀ f ∈ more, f ⊆ c :: cs :=
      fun f member => List.subset_cons_of_subset c (others f member)
    rw [List.splitOn_cons_eq_if_modifyHead, split]
    split_ifs
    · exact List.forall_mem_cons.mpr ⟨List.nil_subset _,
        List.forall_mem_cons.mpr ⟨List.subset_cons_of_subset c part, later⟩⟩
    · exact List.forall_mem_cons.mpr ⟨List.cons_subset_cons c part, later⟩

theorem length_le_of_mem_splitOn {s f : List α} (member : f ∈ s.splitOn d) :
    f.length ≤ s.length := by
  induction s generalizing f with
  | nil =>
    obtain rfl : f = [] := by simpa using member
    exact le_refl 0
  | cons c cs ih =>
    obtain ⟨first, more, split⟩ := List.exists_cons_of_ne_nil (List.splitOn_ne_nil d cs)
    rw [split] at ih
    have here := ih List.mem_cons_self
    have later := fun member => ih (f := f) (List.mem_cons_of_mem first member)
    rw [List.splitOn_cons_eq_if_modifyHead, split] at member
    rw [List.length_cons]
    split_ifs at member
    · obtain rfl | rfl | member := by simpa using member
      · exact Nat.zero_le _
      · omega
      · exact Nat.le_succ_of_le (later member)
    · obtain rfl | member := by simpa using member
      · rw [List.length_cons]
        omega
      · exact Nat.le_succ_of_le (later member)

/-- The first field ends where the text does or at the first delimiter. -/
theorem exists_first_field (s : List α) :
    ∃ f more rest, s.splitOn d = f :: more ∧ s = f ++ rest ∧ ∀ c ∈ rest.head?, c = d := by
  by_cases occurs : d ∈ s
  · obtain ⟨f, rest, rfl, none⟩ := List.eq_append_cons_of_mem occurs
    exact ⟨f, _, d :: rest, List.splitOn_append_cons_self_of_not_mem none _, rfl, by simp⟩
  · exact ⟨s, [], [], List.splitOn_eq_singleton occurs, by simp, by simp⟩

theorem splitOn_eq_takeWhile_cons (s : List α) :
    ∃ more, s.splitOn d = s.takeWhile (· ≠ d) :: more := by
  obtain ⟨f, more, rest, split, rfl, ends⟩ := exists_first_field (d := d) s
  have free : ∀ c ∈ f, decide (c ≠ d) = true := fun c member =>
    decide_eq_true fun same => splitOn_free _ f (split ▸ List.mem_cons_self) (same ▸ member)
  refine ⟨more, ?_⟩
  rw [split, List.takeWhile_append_of_pos free]
  cases rest with
  | nil => simp
  | cons c rest => simp [ends c rfl]

theorem length_splitOn (s : List α) : (s.splitOn d).length = s.count d + 1 := by
  have joined := Getline.count_intercalate (splitOn_free s) (List.splitOn_ne_nil d s)
  rw [List.intercalate_splitOn] at joined
  exact joined.symm

/-- A text that is put before another changes its first field only. -/
theorem splitOn_append (before s : List α) :
    ∃ front, front ≠ [] ∧ (before ++ s).splitOn d = front ++ (s.splitOn d).tail := by
  induction before with
  | nil =>
    obtain ⟨first, more, split⟩ := List.exists_cons_of_ne_nil (List.splitOn_ne_nil d s)
    exact ⟨[first], List.cons_ne_nil _ _, by rw [List.nil_append, split]; rfl⟩
  | cons c cs ih =>
    obtain ⟨front, filled, split⟩ := ih
    obtain ⟨first, more, rfl⟩ := List.exists_cons_of_ne_nil filled
    rw [List.cons_append, List.splitOn_cons_eq_if_modifyHead, split]
    split_ifs with same
    · exact ⟨[] :: first :: more, List.cons_ne_nil _ _, rfl⟩
    · exact ⟨(c :: first) :: more, List.cons_ne_nil _ _, rfl⟩

/-- A text that is put behind another changes its last field only. -/
theorem splitOn_append_left (s behind : List α) :
    ∃ rest, (s ++ behind).splitOn d = (s.splitOn d).dropLast ++ rest := by
  induction s with
  | nil => exact ⟨behind.splitOn d, by simp⟩
  | cons c cs ih =>
    obtain ⟨rest, split⟩ := ih
    obtain ⟨first, more, fields⟩ := List.exists_cons_of_ne_nil (List.splitOn_ne_nil d cs)
    rw [List.cons_append, List.splitOn_cons_eq_if_modifyHead, List.splitOn_cons_eq_if_modifyHead,
      split, fields]
    split_ifs with same
    · exact ⟨rest, by simp⟩
    · cases more with
      | nil => exact ⟨rest.modifyHead (c :: ·), rfl⟩
      | cons second more => exact ⟨rest, rfl⟩

/-- A text between two delimiters of a longer one is cut as it is by itself. -/
theorem splitOn_between {front back : List (List α)} (freeFront : ∀ f ∈ front, d ∉ f)
    (freeBack : ∀ f ∈ back, d ∉ f) (filledFront : front ≠ []) (filledBack : back ≠ [])
    (s : List α) :
    ([d].intercalate front ++ d :: (s ++ d :: [d].intercalate back)).splitOn d =
      front ++ (s.splitOn d ++ back) := by
  rw [List.splitOn_append_cons_self, List.splitOn_append_cons_self,
    List.splitOn_intercalate _ freeFront filledFront,
    List.splitOn_intercalate _ freeBack filledBack]

/-! ### Fields that are not empty -/

omit [DecidableEq α] in
theorem rtake_append {n : Nat} (first : List α) {last : List α} (enough : n ≤ last.length) :
    (first ++ last).rtake n = last.rtake n := by
  have past : first.length ≤ first.length + last.length - n := by omega
  have behind : first.length + last.length - n - first.length = last.length - n := by omega
  rw [List.rtake, List.rtake, List.length_append, List.drop_append,
    List.drop_of_length_le past, behind, List.nil_append]

/-- The fields between delimiters that are not empty. -/
def filled (d : α) (s : List α) : List (List α) := (s.splitOn d).filter (· ≠ [])

/-- A text that is put before another leaves the last fields as they are, but for one. -/
theorem rtake_filled_append {n : Nat} {s : List α} (before : List α)
    (enough : n < (filled d s).length) :
    (filled d (before ++ s)).rtake n = (filled d s).rtake n := by
  obtain ⟨front, -, split⟩ := splitOn_append (d := d) before s
  obtain ⟨first, more, fields⟩ := List.exists_cons_of_ne_nil (List.splitOn_ne_nil d s)
  have apart : filled d s = [first].filter (· ≠ []) ++ more.filter (· ≠ []) := by
    rw [filled, fields, ← List.filter_append, List.singleton_append]
  have one : ([first].filter (· ≠ [])).length ≤ 1 := List.length_filter_le _ _
  rw [apart, List.length_append] at enough
  have others : n ≤ (more.filter (· ≠ [])).length := by omega
  rw [apart, filled, split, fields, List.tail_cons, List.filter_append, rtake_append _ others,
    rtake_append _ others]

end Kit.Split
