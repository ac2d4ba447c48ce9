import EtradePipeline.Kit.Split
import Mathlib.Data.List.Infix

/-! The first occurrence of a word in a text.  A text that is cut at its quotes is searched for a
quoted word piece by piece. -/

namespace Kit.Search

variable {α : Type*} [DecidableEq α]

/-- Where the word first occurs. -/
def indexOf (word : List α) : List α → Option Nat
  | [] => if word = [] then some 0 else none
  | c :: cs => if word <+: c :: cs then some 0 else (indexOf word cs).map (· + 1)

/-- The text behind the first occurrence of the word. -/
def behind (word text : List α) : Option (List α) :=
  (indexOf word text).map fun i => text.drop (i + word.length)

theorem behind_append (word rest : List α) : behind word (word ++ rest) = some rest := by
  unfold behind
  cases text : word ++ rest with
  | nil =>
    obtain ⟨rfl, rfl⟩ := List.append_eq_nil_iff.mp text
    simp [indexOf]
  | cons c cs =>
    rw [indexOf, if_pos (text ▸ List.prefix_append word rest), Option.map_some, ← text,
      Nat.zero_add, List.drop_left]

theorem behind_cons {word : List α} {c : α} {cs : List α} (differs : ¬ word <+: c :: cs) :
    behind word (c :: cs) = behind word cs := by
  simp only [behind, indexOf, if_neg differs, Option.map_map]
  congr 1
  funext i
  show (c :: cs).drop (i + 1 + word.length) = _
  rw [Nat.add_right_comm, List.drop_succ_cons]

theorem behind_append_of_notMem {q : α} {before : List α} (free : q ∉ before) (word text : List α) :
    behind (q :: word) (before ++ text) = behind (q :: word) text := by
  induction before with
  | nil => rfl
  | cons c cs ih =>
    rw [List.mem_cons, not_or] at free
    have differs : ¬ q :: word <+: c :: (cs ++ text) :=
      fun initial => free.1 (List.cons_prefix_cons.mp initial).1
    rw [List.cons_append, behind_cons differs, ih free.2]

theorem prefix_of_indexOf {word text : List α} {i : Nat} (found : indexOf word text = some i) :
    word <+: text.drop i := by
  induction text generalizing i with
  | nil =>
    unfold indexOf at found
    split_ifs at found with empty
    rw [empty]
    exact List.nil_prefix
  | cons c cs ih =>
    rw [indexOf] at found
    split_ifs at found with starts
    · cases found
      exact starts
    · obtain ⟨j, later, rfl⟩ := Option.map_eq_some_iff.mp found
      exact ih later

/-- A word that is found is in the text, and then what is behind it. -/
theorem eq_append_of_behind {word text rest : List α} (found : behind word text = some rest) :
    ∃ before, text = before ++ word ++ rest := by
  obtain ⟨i, first, rfl⟩ := Option.map_eq_some_iff.mp found
  obtain ⟨tail, same⟩ := prefix_of_indexOf first
  refine ⟨text.take i, ?_⟩
  rw [← List.drop_drop, ← same, List.drop_left, List.append_assoc, same, List.take_append_drop]

theorem infix_of_behind {word text rest : List α} (found : behind word text = some rest) :
    word <:+: text := by
  obtain ⟨before, rfl⟩ := eq_append_of_behind found
  exact ⟨before, rest, rfl⟩

/-! ### Neighbours -/

omit [DecidableEq α] in
/-- Two neighbours in a list behind another are in one of the lists, or the last of the one and the
first of the other. -/
theorem pair_infix_append {w x : α} {a b : List α} (inside : [w, x] <:+: a ++ b) :
    [w, x] <:+: a ∨ [w, x] <:+: b ∨ w ∈ a ∧ b.head? = some x := by
  obtain ⟨l, r, same⟩ := inside
  rw [List.append_assoc] at same
  obtain ⟨late, rfl, behind⟩ | ⟨early, rfl, behind⟩ := List.append_eq_append_iff.mp same
  · rcases late with _ | ⟨c, _ | ⟨d, late⟩⟩
    · exact .inr (.inl ⟨[], r, by simpa using behind⟩)
    · simp only [List.cons_append, List.nil_append, List.cons.injEq] at behind
      obtain ⟨rfl, rfl⟩ := behind
      exact .inr (.inr ⟨by simp, rfl⟩)
    · simp only [List.cons_append, List.nil_append, List.cons.injEq] at behind
      obtain ⟨rfl, rfl, -⟩ := behind
      exact .inl ⟨l, late, by simp⟩
  · exact .inr (.inl ⟨early, r, by simp [behind]⟩)

omit [DecidableEq α] in
/-- Of three neighbours in a list behind another the last is in the first list or among the first
two of the second one, or the first is in the second one. -/
theorem triple_infix_append {w x y : α} {a b : List α} (inside : [w, x, y] <:+: a ++ b) :
    y ∈ a ∨ y ∈ b.take 2 ∨ w ∈ b := by
  obtain ⟨l, r, same⟩ := inside
  rw [List.append_assoc] at same
  obtain ⟨late, rfl, behind⟩ | ⟨early, rfl, behind⟩ := List.append_eq_append_iff.mp same
  · rcases late with _ | ⟨c, _ | ⟨d, _ | ⟨e, late⟩⟩⟩
    · rw [List.nil_append] at behind
      rw [← behind]
      exact .inr (.inr List.mem_cons_self)
    · simp only [List.cons_append, List.nil_append, List.cons.injEq] at behind
      obtain ⟨-, rfl⟩ := behind
      exact .inr (.inl (by simp))
    · simp only [List.cons_append, List.nil_append, List.cons.injEq] at behind
      obtain ⟨-, -, rfl⟩ := behind
      exact .inr (.inl (by simp))
    · simp only [List.cons_append, List.nil_append, List.cons.injEq] at behind
      obtain ⟨-, -, rfl, -⟩ := behind
      exact .inl (by simp)
  · exact .inr (.inr (by simp [behind]))

/-! ### Pieces -/

omit [DecidableEq α] in
theorem notMem_intercalate {c d : α} (ne : c ≠ d) {pieces : List (List α)}
    (free : ∀ piece ∈ pieces, c ∉ piece) : c ∉ [d].intercalate pieces := by
  induction pieces with
  | nil => exact List.not_mem_nil
  | cons piece more ih =>
    obtain ⟨first, others⟩ := List.forall_mem_cons.mp free
    cases more with
    | nil => rwa [List.intercalate_singleton]
    | cons next more =>
      simp only [List.intercalate_cons_cons, List.mem_append, List.mem_singleton, not_or]
      exact ⟨⟨first, ne⟩, ih others⟩

theorem count_intercalate_of_free {c d : α} (ne : c ≠ d) {first second : List (List α)} {x : List α}
    (free : ∀ piece ∈ first ++ second, c ∉ piece) :
    ([d].intercalate (first ++ x :: second)).count c = x.count c := by
  induction first with
  | nil =>
    cases second with
    | nil => rw [List.nil_append, List.intercalate_singleton]
    | cons next more =>
      have none := List.count_eq_zero.mpr (notMem_intercalate ne free)
      simp only [List.nil_append] at none
      simp [List.intercalate_cons_cons, List.count_append, none, List.count_cons_of_ne (Ne.symm ne)]
  | cons piece first ih =>
    obtain ⟨before, others⟩ := List.forall_mem_cons.mp free
    obtain ⟨next, more, rest⟩ : ∃ next more, first ++ x :: second = next :: more :=
      List.exists_cons_of_ne_nil (by simp)
    have behind := ih others
    rw [List.cons_append, rest, List.intercalate_cons_cons, ← rest, List.count_append,
      List.count_append, behind, List.count_eq_zero.mpr before, List.count_singleton, if_neg]
    · simp
    · simpa using Ne.symm ne

variable {q : α}

theorem indexOf_singleton {before : List α} (free : q ∉ before) (rest : List α) :
    indexOf [q] (before ++ q :: rest) = some before.length := by
  induction before with
  | nil => simp [indexOf]
  | cons c cs ih =>
    rw [List.mem_cons, not_or] at free
    have differs : ¬ [q] <+: c :: (cs ++ q :: rest) :=
      fun initial => free.1 (List.cons_prefix_cons.mp initial).1
    rw [List.cons_append, indexOf, if_neg differs, ih free.2]
    rfl

theorem behind_singleton {before : List α} (free : q ∉ before) (rest : List α) :
    behind [q] (before ++ q :: rest) = some rest := by
  rw [behind, indexOf_singleton free, Option.map_some, List.append_cons]
  exact congrArg some (List.drop_left' (by simp))

/-! ### Quoted words -/

/-- The word between quotes. -/
def quoted (q : α) (word : List α) : List α := q :: (word ++ [q])

/-- The pieces behind the first that is the word, where each piece but the first and the last is one
between quotes. -/
def behindPiece (word : List α) : List (List α) → Option (List (List α))
  | _ :: piece :: next :: more =>
    if piece = word then some (next :: more) else behindPiece word (piece :: next :: more)
  | _ => none

omit [DecidableEq α] in
theorem quoted_prefix_iff {word piece : List α} (freeWord : q ∉ word) (freePiece : q ∉ piece)
    (rest : List α) : quoted q word <+: q :: (piece ++ q :: rest) ↔ piece = word := by
  rw [quoted, List.prefix_cons_inj]
  constructor
  · intro initial
    induction word generalizing piece with
    | nil =>
      cases piece with
      | nil => rfl
      | cons c cs =>
        obtain ⟨same, -⟩ := List.cons_prefix_cons.mp initial
        exact absurd (same ▸ List.mem_cons_self) freePiece
    | cons d ds ih =>
      cases piece with
      | nil =>
        obtain ⟨same, -⟩ := List.cons_prefix_cons.mp initial
        exact absurd (same ▸ List.mem_cons_self) freeWord
      | cons c cs =>
        obtain ⟨rfl, shorter⟩ := List.cons_prefix_cons.mp initial
        rw [ih (fun member => freeWord (List.mem_cons_of_mem _ member))
          (fun member => freePiece (List.mem_cons_of_mem _ member)) shorter]
  · rintro rfl
    exact ⟨rest, by simp⟩

/-- A text is cut at the quotes of a word in it. -/
theorem splitOn_quoted {word : List α} (free : q ∉ word) (before rest : List α) :
    (before ++ quoted q word ++ rest).splitOn q = before.splitOn q ++ word :: rest.splitOn q := by
  have text : before ++ quoted q word ++ rest = before ++ q :: (word ++ q :: rest) := by
    simp [quoted]
  rw [text, List.splitOn_append_cons_self, List.splitOn_append_cons_self_of_not_mem free]

/-- A word between quotes of a text is a field between others. -/
theorem mem_splitOn_of_quoted {word text : List α} (free : q ∉ word)
    (inside : quoted q word <:+: text) : word ∈ (text.splitOn q).tail.dropLast := by
  obtain ⟨before, rest, rfl⟩ := inside
  rw [splitOn_quoted free, List.tail_append_of_ne_nil (List.splitOn_ne_nil q before),
    List.dropLast_append_of_ne_nil (List.cons_ne_nil _ _),
    List.dropLast_cons_of_ne_nil (List.splitOn_ne_nil q rest)]
  exact List.mem_append_right _ List.mem_cons_self

theorem behind_quoted_append {before : List α} (free : q ∉ before) (word text : List α) :
    behind (quoted q word) (before ++ text) = behind (quoted q word) text :=
  behind_append_of_notMem free _ text

theorem behind_quoted_none {text : List α} (free : q ∉ text) (word : List α) :
    behind (quoted q word) text = none := by
  have searched := behind_quoted_append free word []
  rw [List.append_nil] at searched
  rw [searched]
  rfl

/-- The text is searched for a quoted word piece by piece. -/
theorem behind_quoted_intercalate {word : List α} (freeWord : q ∉ word) {pieces : List (List α)}
    (free : ∀ piece ∈ pieces, q ∉ piece) :
    behind (quoted q word) ([q].intercalate pieces) =
      (behindPiece word pieces).map [q].intercalate := by
  induction pieces with
  | nil => rfl
  | cons before pieces ih =>
    obtain ⟨freeBefore, others⟩ := List.forall_mem_cons.mp free
    cases pieces with
    | nil => rw [List.intercalate_singleton, behind_quoted_none freeBefore]; rfl
    | cons piece more =>
      obtain ⟨freePiece, rest⟩ := List.forall_mem_cons.mp others
      rw [List.intercalate_cons_cons, List.append_assoc, List.singleton_append,
        behind_quoted_append freeBefore]
      cases more with
      | nil =>
        rw [List.intercalate_singleton, behind_cons]
        · rw [behind_quoted_none freePiece]
          rfl
        · intro initial
          have member : q ∈ piece :=
            (List.cons_prefix_cons.mp initial).2.subset (List.mem_append_right _ List.mem_cons_self)
          exact freePiece member
      | cons next more =>
        have searched := ih others
        rw [List.intercalate_cons_cons, List.append_assoc, List.singleton_append] at searched ⊢
        have starts := quoted_prefix_iff freeWord freePiece ([q].intercalate (next :: more))
        unfold behindPiece
        split_ifs with same
        · subst same
          have text : q :: (piece ++ q :: [q].intercalate (next :: more)) =
              quoted q piece ++ [q].intercalate (next :: more) := by simp [quoted]
          rw [text, behind_append]
          rfl
        · rw [behind_cons (mt starts.mp same), searched]

/-- A text is searched for a quoted word among the pieces between its quotes. -/
theorem behind_quoted {word : List α} (free : q ∉ word) (text : List α) :
    behind (quoted q word) text = (behindPiece word (text.splitOn q)).map [q].intercalate := by
  rw [← behind_quoted_intercalate free (Split.splitOn_free text), List.intercalate_splitOn]

/-- Pieces that are not the word are passed, and so is the first. -/
theorem behindPiece_append {word : List α} {front : List (List α)} (nonempty : front ≠ [])
    (other : word ∉ front) (rest : List (List α)) (before : List α) :
    behindPiece word (front ++ rest) = behindPiece word (before :: rest) := by
  induction front with
  | nil => exact absurd rfl nonempty
  | cons first front ih =>
    rw [List.mem_cons, not_or] at other
    cases front with
    | nil =>
      cases rest with
      | nil => rfl
      | cons piece rest => cases rest <;> rfl
    | cons piece front =>
      have differs : piece ≠ word := fun same => other.2 (same ▸ List.mem_cons_self)
      rw [← ih (List.cons_ne_nil _ _) other.2, List.cons_append, List.cons_append]
      cases front ++ rest with
      | nil => rfl
      | cons next more => rw [behindPiece, if_neg differs]

end Kit.Search
