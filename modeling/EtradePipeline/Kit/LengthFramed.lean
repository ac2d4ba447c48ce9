import EtradePipeline.Kit.Search

/-! Messages with a head, a mark that ends it, and a body whose length the head announces.  A
message is read whole, and no part of it is taken for a message. -/

namespace Kit.LengthFramed

open Search (indexOf prefix_of_indexOf)

variable {α : Type*} [DecidableEq α]

/-- The body of the message at the start of a text. -/
def read (mark : List α) (announced : List α → Option Nat) (s : List α) : Option (List α) :=
  (indexOf mark s).bind fun i =>
    (announced (s.take i)).bind fun n =>
      let rest := s.drop (i + mark.length)
      if n ≤ rest.length then some (rest.take n) else none

/-! ### The mark -/

section Mark

variable {word s : List α} {i : Nat}

theorem indexOf_le (found : indexOf word s = some i) : i + word.length ≤ s.length := by
  induction s generalizing i with
  | nil =>
    unfold indexOf at found
    split_ifs at found with empty
    cases found
    rw [empty]
    exact le_refl 0
  | cons c s ih =>
    rw [indexOf] at found
    split_ifs at found with starts
    · cases found
      rw [Nat.zero_add]
      exact starts.length_le
    · obtain ⟨j, later, rfl⟩ := Option.map_eq_some_iff.mp found
      have inside := ih later
      rw [List.length_cons]
      omega

/-- What follows the first occurrence does not move it. -/
theorem indexOf_append (found : indexOf word s = some i) (more : List α) :
    indexOf word (s ++ more) = some i := by
  induction s generalizing i with
  | nil =>
    unfold indexOf at found
    split_ifs at found with empty
    cases found
    subst empty
    cases more with
    | nil => rfl
    | cons c more => exact if_pos List.nil_prefix
  | cons c s ih =>
    have inside := indexOf_le found
    rw [indexOf] at found
    rw [List.cons_append, indexOf]
    split_ifs at found with starts
    · cases found
      exact if_pos (starts.trans (List.prefix_append (c :: s) more))
    · obtain ⟨j, later, rfl⟩ := Option.map_eq_some_iff.mp found
      have early : ¬ word <+: c :: (s ++ more) := fun early =>
        starts (List.prefix_of_prefix_length_le early (List.prefix_append (c :: s) more) (by omega))
      rw [if_neg early, ih later, Option.map_some]

/-- What is behind the first occurrence. -/
theorem behind_append {before : List α} (first : indexOf word (before ++ word) = some before.length)
    (more : List α) : Search.behind word (before ++ word ++ more) = some more := by
  rw [Search.behind, indexOf_append first more, Option.map_some, ← List.length_append,
    List.drop_left]

/-- A text without the first item of the word comes before the word. -/
theorem indexOf_free {c : α} {before : List α} (free : c ∉ before) (rest : List α) :
    indexOf (c :: word) (before ++ rest) = (indexOf (c :: word) rest).map (before.length + ·) := by
  induction before with
  | nil => simp
  | cons d before ih =>
    rw [List.mem_cons, not_or] at free
    have differs : ¬ c :: word <+: d :: (before ++ rest) :=
      fun starts => free.1 (List.cons_prefix_cons.mp starts).1
    rw [List.cons_append, indexOf, if_neg differs, ih free.2, Option.map_map, List.length_cons]
    congr 1
    funext n
    show before.length + n + 1 = before.length + 1 + n
    omega

theorem indexOf_self (word : List α) : indexOf word word = some 0 := by
  cases word with
  | nil => rfl
  | cons c word => exact if_pos (List.prefix_refl _)

/-- Lines that are not empty, each ended by the two items `c` and `d`, come before the first empty
one. -/
theorem indexOf_blank {c d : α} (ne : c ≠ d) (lines : List (List α))
    (filled : ∀ line ∈ lines, line ≠ []) (free : ∀ line ∈ lines, c ∉ line) (rest : List α) :
    indexOf [c, d, c, d] ([c, d].intercalate lines ++ [c, d, c, d] ++ rest) =
      some ([c, d].intercalate lines).length := by
  induction lines with
  | nil =>
    exact indexOf_append (indexOf_self _) rest
  | cons line lines ih =>
    obtain ⟨own, others⟩ := List.forall_mem_cons.mp free
    obtain ⟨-, filled⟩ := List.forall_mem_cons.mp filled
    cases lines with
    | nil =>
      rw [List.intercalate_singleton, List.append_assoc, indexOf_free own,
        indexOf_append (indexOf_self _) rest]
      rfl
    | cons next lines =>
      obtain ⟨first, more, begins⟩ := List.exists_cons_of_ne_nil (filled next List.mem_cons_self)
      have other : first ≠ c := fun same =>
        others next List.mem_cons_self (begins ▸ same ▸ List.mem_cons_self)
      have text : [c, d].intercalate (line :: next :: lines) =
          line ++ c :: d :: [c, d].intercalate (next :: lines) := by
        rw [List.intercalate_cons_cons, List.append_assoc]
        rfl
      have nextText : ∃ s, [c, d].intercalate (next :: lines) ++ [c, d, c, d] ++ rest =
          first :: s := by
        cases lines <;> simp [begins]
      obtain ⟨s, starts⟩ := nextText
      have later := ih filled others
      have behind : [c, d].intercalate (line :: next :: lines) ++ [c, d, c, d] ++ rest =
          line ++ c :: d :: first :: s := by
        rw [text, ← starts]
        simp
      have early : ¬ [c, d, c, d] <+: c :: d :: first :: s := by simp [other.symm]
      rw [starts] at later
      rw [behind, text, indexOf_free own, indexOf, if_neg early, indexOf,
        if_neg (by simp [ne]), later]
      simp [Nat.add_assoc]

end Mark

/-! ### Messages -/

section Messages

variable {mark head body s : List α} {announced : List α → Option Nat}

/-- A message is read, whatever follows. -/
theorem read_message (first : indexOf mark (head ++ mark) = some head.length)
    (length : announced head = some body.length) (more : List α) :
    read mark announced (head ++ mark ++ body ++ more) = some body := by
  have found : indexOf mark (head ++ mark ++ body ++ more) = some head.length :=
    indexOf_append (indexOf_append first body) more
  have before : (head ++ mark ++ body ++ more).take head.length = head := by simp
  have behind : (head ++ mark ++ body ++ more).drop (head.length + mark.length) = body ++ more := by
    rw [← List.length_append, List.append_assoc, List.drop_left]
  simp only [read, found, Option.bind_some, before, length, behind]
  rw [if_pos (by simp), List.take_left]

/-- No part of a message is read. -/
theorem read_part (first : indexOf mark (head ++ mark) = some head.length)
    (length : announced head = some body.length) (part : s <+: head ++ mark ++ body)
    (strict : s.length < (head ++ mark ++ body).length) : read mark announced s = none := by
  cases found : indexOf mark s with
  | none => rw [read, found, Option.bind_none]
  | some i =>
    obtain ⟨rest, whole⟩ := part
    have same : i = head.length := by
      have early := indexOf_append found rest
      rw [whole, indexOf_append first body] at early
      exact (Option.some.inj early).symm
    subst same
    have inside := indexOf_le found
    have before : s.take head.length = head := by
      have both : (s ++ rest).take head.length = head := by simp [whole]
      rwa [List.take_append_of_le_length (by omega)] at both
    rw [read, found, Option.bind_some, before, length, Option.bind_some, if_neg]
    simp only [List.length_append, List.length_drop] at strict ⊢
    omega

end Messages

end Kit.LengthFramed
