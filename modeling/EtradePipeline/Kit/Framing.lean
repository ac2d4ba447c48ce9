import Mathlib.Data.List.Basic

/-! A stream cut into segments that end with a delimiter.  `cut` gives the segments and what is left
after the last one.  A stream may be cut in two steps, the left-over of the first part carried over
to the second, and the segments are the same. -/

namespace Kit.Framing

variable {α : Type*} [DecidableEq α] {d : α}

/-- The segments that end with `d`, and what is left. -/
def cut (d : α) : List α → List (List α) × List α
  | [] => ([], [])
  | c :: cs =>
    if c = d then ([c] :: (cut d cs).1, (cut d cs).2)
    else
      match (cut d cs).1 with
      | [] => ([], c :: (cut d cs).2)
      | segment :: more => ((c :: segment) :: more, (cut d cs).2)

theorem cut_of_notMem {s : List α} (none : d ∉ s) : cut d s = ([], s) := by
  induction s with
  | nil => rfl
  | cons c cs ih =>
    have ne : c ≠ d := fun same => none (same ▸ List.mem_cons_self)
    have rest := ih fun member => none (List.mem_cons_of_mem _ member)
    simp [cut, ne, rest]

theorem cut_first {s : List α} (none : d ∉ s) (rest : List α) :
    cut d (s ++ d :: rest) = ((s ++ [d]) :: (cut d rest).1, (cut d rest).2) := by
  induction s with
  | nil => simp [cut]
  | cons c cs ih =>
    have ne : c ≠ d := fun same => none (same ▸ List.mem_cons_self)
    have rest := ih fun member => none (List.mem_cons_of_mem _ member)
    simp [cut, ne, rest]

theorem left_notMem (s : List α) : d ∉ (cut d s).2 := by
  induction s with
  | nil => simp [cut]
  | cons c cs ih =>
    simp only [cut]
    split_ifs with same
    · exact ih
    · cases segments : (cut d cs).1 with
      | nil => simpa [Ne.symm same] using ih
      | cons segment more => exact ih

/-- A segment has the delimiter at its end, and nowhere else. -/
theorem segment_of_cut (s : List α) :
    ∀ segment ∈ (cut d s).1, ∃ text, d ∉ text ∧ segment = text ++ [d] := by
  induction s with
  | nil => exact List.forall_mem_nil _
  | cons c cs ih =>
    simp only [cut]
    split_ifs with same
    · exact List.forall_mem_cons.mpr ⟨⟨[], List.not_mem_nil, by rw [same]; rfl⟩, ih⟩
    · cases segments : (cut d cs).1 with
      | nil => exact List.forall_mem_nil _
      | cons segment more =>
        rw [segments] at ih
        obtain ⟨⟨text, free, rfl⟩, others⟩ := List.forall_mem_cons.mp ih
        refine List.forall_mem_cons.mpr ⟨⟨c :: text, ?_, rfl⟩, others⟩
        exact fun member => (List.mem_cons.mp member).elim (fun is => same is.symm) free

/-- What is left of the first part goes in front of the second. -/
theorem cut_append (x y : List α) :
    cut d (x ++ y) =
      ((cut d x).1 ++ (cut d ((cut d x).2 ++ y)).1, (cut d ((cut d x).2 ++ y)).2) := by
  induction x with
  | nil => simp [cut]
  | cons c cs ih =>
    rw [List.cons_append]
    simp only [cut]
    split_ifs with same
    · simp [ih]
    · cases segments : (cut d cs).1 with
      | nil =>
        rw [segments, List.nil_append] at ih
        simp [cut, same, ih]
      | cons segment more =>
        rw [segments, List.cons_append] at ih
        simp [ih]

end Kit.Framing
