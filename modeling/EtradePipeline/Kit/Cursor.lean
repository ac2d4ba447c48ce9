import Mathlib.Data.List.Basic

/-! Positions in a list of buffers.  A position is the number of a buffer and an offset in it.  What
is `passed` at a position and what is `left` make up the concatenation of the buffers. -/

namespace Kit.Cursor

variable {α : Type*}

/-- The items before a position. -/
def passed (bufs : List (List α)) (idx offset : Nat) : List α :=
  (bufs.take idx).flatten ++ ((bufs.drop idx).headD []).take offset

/-- The items from a position on. -/
def left (bufs : List (List α)) (idx offset : Nat) : List α := (bufs.drop idx).flatten.drop offset

/-- The position is before an item of its buffer, or behind all buffers. -/
def Within (bufs : List (List α)) (idx offset : Nat) : Prop :=
  ∀ buf ∈ (bufs.drop idx).head?, offset < buf.length

/-- Up to `n` buffers from a position on, without what is passed of the first. -/
def window (n : Nat) (bufs : List (List α)) (idx offset : Nat) : List (List α) :=
  match (bufs.drop idx).take n with
  | [] => []
  | buf :: rest => buf.drop offset :: rest

variable {bufs rest : List (List α)} {buf : List α} {idx offset n : Nat}

theorem within_start (nonempty : ∀ buf ∈ bufs, buf ≠ []) : Within bufs 0 0 := by
  intro buf first
  exact List.length_pos_iff.mpr (nonempty buf (List.mem_of_mem_head? first))

theorem left_start (bufs : List (List α)) : left bufs 0 0 = bufs.flatten := rfl

theorem drop_next (at_ : bufs.drop idx = buf :: rest) : bufs.drop (idx + 1) = rest := by
  rw [← List.drop_drop, at_]
  rfl

theorem left_of_drop (at_ : bufs.drop idx = buf :: rest) (within : offset ≤ buf.length) :
    left bufs idx offset = buf.drop offset ++ rest.flatten := by
  rw [left, at_, List.flatten_cons, List.drop_append_of_le_length within]

/-- A position later in the same buffer. -/
theorem left_add (k : Nat) : left bufs idx (offset + k) = (left bufs idx offset).drop k := by
  rw [left, left, List.drop_drop]

/-- The start of the next buffer. -/
theorem left_next (at_ : bufs.drop idx = buf :: rest) (within : offset ≤ buf.length) :
    left bufs (idx + 1) 0 = (left bufs idx offset).drop (buf.length - offset) := by
  have full : (buf.drop offset).length = buf.length - offset := List.length_drop
  rw [left_of_drop at_ within, ← full, List.drop_left, left, drop_next at_, List.drop_zero]

theorem passed_append_left (within : Within bufs idx offset) :
    passed bufs idx offset ++ left bufs idx offset = bufs.flatten := by
  have whole : (bufs.take idx).flatten ++ (bufs.drop idx).flatten = bufs.flatten := by
    rw [← List.flatten_append, List.take_append_drop]
  cases at_ : bufs.drop idx with
  | nil => simpa [passed, left, at_] using whole
  | cons buf rest =>
    have inside : offset < buf.length := within buf (by rw [at_]; rfl)
    rw [passed, left_of_drop at_ (Nat.le_of_lt inside), at_, List.headD_cons, ← whole, at_,
      List.flatten_cons,
      List.append_assoc, ← List.append_assoc (buf.take offset), List.take_append_drop]

/-- A window shows the first of what is left. -/
theorem window_prefix (within : Within bufs idx offset) :
    (window n bufs idx offset).flatten <+: left bufs idx offset := by
  cases n with
  | zero => simp [window]
  | succ n =>
    cases at_ : bufs.drop idx with
    | nil => simp [window, at_]
    | cons buf rest =>
      have inside : offset < buf.length := within buf (by rw [at_]; rfl)
      rw [window, at_, List.take_succ_cons, left_of_drop at_ (Nat.le_of_lt inside)]
      refine (List.prefix_append_right_inj _).mpr ⟨(rest.drop n).flatten, ?_⟩
      rw [← List.flatten_append, List.take_append_drop]

/-- While something is left, a window shows some of it. -/
theorem window_ne_nil (within : Within bufs idx offset) (more : left bufs idx offset ≠ []) :
    (window (n + 1) bufs idx offset).flatten ≠ [] := by
  cases at_ : bufs.drop idx with
  | nil => simp [left, at_] at more
  | cons buf rest =>
    have inside : offset < buf.length := within buf (by rw [at_]; rfl)
    simp [window, at_, Nat.not_le.mpr inside]

end Kit.Cursor
