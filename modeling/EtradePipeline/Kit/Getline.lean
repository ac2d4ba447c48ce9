import Mathlib.Data.List.Basic

/-! The tokens that `std::getline` reads off a stream, one call after another.  They are the pieces
between the delimiters, but for a last piece that is empty. -/

namespace Kit.Getline

variable {α : Type*} [DecidableEq α] {d : α} {field s : List α}

/-- The tokens that `std::getline` reads off a stream with `token` as the characters of the one it
is in.  A stream that has nothing left gives no token. -/
def getlines (delim : α) : List α → List α → List (List α)
  | token, [] => if token = [] then [] else [token]
  | token, c :: cs =>
    if c = delim then token :: getlines delim [] cs else getlines delim (token ++ [c]) cs

theorem getlines_field (none : d ∉ field) (token rest : List α) :
    getlines d token (field ++ d :: rest) = (token ++ field) :: getlines d [] rest := by
  induction field generalizing token with
  | nil => simp [getlines]
  | cons c cs ih =>
    rw [List.mem_cons, not_or] at none
    obtain ⟨ne, others⟩ := none
    rw [List.cons_append, getlines, if_neg (Ne.symm ne), ih others]
    simp

theorem getlines_last (none : d ∉ field) (token : List α) :
    getlines d token field = if token ++ field = [] then [] else [token ++ field] := by
  induction field generalizing token with
  | nil => simp [getlines]
  | cons c cs ih =>
    rw [List.mem_cons, not_or] at none
    obtain ⟨ne, others⟩ := none
    rw [getlines, if_neg (Ne.symm ne), ih others]
    simp

/-- The first part ends where the text does or at the first delimiter. -/
theorem getlines_cons {first : List α} {more : List (List α)}
    (cut : getlines d [] s = first :: more) :
    d ∉ first ∧
      (s = first ∧ more = [] ∨ ∃ rest, s = first ++ d :: rest ∧ getlines d [] rest = more) := by
  by_cases occurs : d ∈ s
  · obtain ⟨field, rest, rfl, none⟩ := List.eq_append_cons_of_mem occurs
    rw [getlines_field none, List.nil_append] at cut
    obtain ⟨rfl, behind⟩ := List.cons.inj cut
    exact ⟨none, .inr ⟨rest, rfl, behind⟩⟩
  · rw [getlines_last occurs, List.nil_append] at cut
    split_ifs at cut
    obtain ⟨rfl, rfl⟩ := List.cons.inj cut
    exact ⟨occurs, .inl ⟨rfl, rfl⟩⟩

theorem getlines_free : ∀ f ∈ getlines d [] s, d ∉ f := by
  generalize cut : getlines d [] s = fields
  induction fields generalizing s with
  | nil => exact List.forall_mem_nil _
  | cons first more ih =>
    obtain ⟨none, ⟨rfl, rfl⟩ | ⟨rest, rfl, behind⟩⟩ := getlines_cons cut
    · exact List.forall_mem_singleton.mpr none
    · exact List.forall_mem_cons.mpr ⟨none, ih behind⟩

theorem mem_of_mem_getlines {c : α} (member : field ∈ getlines d [] s) (inside : c ∈ field) :
    c ∈ s := by
  generalize cut : getlines d [] s = fields at member
  induction fields generalizing s with
  | nil => cases member
  | cons first more ih =>
    obtain ⟨-, ⟨rfl, rfl⟩ | ⟨rest, rfl, behind⟩⟩ := getlines_cons cut
    · rwa [← List.mem_singleton.mp member]
    · rcases List.mem_cons.mp member with rfl | later
      · exact List.mem_append_left _ inside
      · exact List.mem_append_right _ (List.mem_cons_of_mem _ (ih behind later))

/-- Behind a token the stream ends or has the delimiter. -/
theorem exists_around_of_mem_getlines (member : field ∈ getlines d [] s) :
    ∃ before behind, s = before ++ field ++ behind ∧ ∀ c ∈ behind.head?, c = d := by
  generalize cut : getlines d [] s = fields at member
  induction fields generalizing s with
  | nil => cases member
  | cons first more ih =>
    obtain ⟨-, ⟨rfl, rfl⟩ | ⟨rest, rfl, later⟩⟩ := getlines_cons cut
    · obtain rfl := List.mem_singleton.mp member
      exact ⟨[], [], by simp, by simp⟩
    · obtain rfl | member := List.mem_cons.mp member
      · exact ⟨[], d :: rest, by simp, by simp⟩
      · obtain ⟨before, behind, rfl, ends⟩ := ih later member
        exact ⟨first ++ d :: before, behind, by simp, ends⟩

theorem length_getlines_le : (getlines d [] s).length ≤ s.count d + 1 := by
  generalize cut : getlines d [] s = fields
  induction fields generalizing s with
  | nil => exact Nat.zero_le _
  | cons first more ih =>
    obtain ⟨none, ⟨rfl, rfl⟩ | ⟨rest, rfl, behind⟩⟩ := getlines_cons cut
    · simp
    · rw [List.count_append, List.count_cons_self, List.length_cons]
      have := ih behind
      omega

/-- A delimiter behind the last token is not a token of its own. -/
theorem getlines_append_delim (nonempty : s ≠ []) (last : ∀ c ∈ s.getLast?, c ≠ d) :
    getlines d [] (s ++ [d]) = getlines d [] s := by
  have unended : ∀ token, (s = [] → token ≠ []) →
      getlines d token (s ++ [d]) = getlines d token s := by
    clear nonempty
    induction s with
    | nil =>
      intro token filled
      simp [getlines, filled rfl]
    | cons c cs ih =>
      intro token filled
      have later : ∀ b ∈ cs.getLast?, b ≠ d := by
        intro b first
        cases cs with
        | nil => cases first
        | cons e es => exact last b (by simpa using first)
      rw [List.cons_append, getlines, getlines]
      split_ifs with same
      · rw [ih later]
        rintro rfl
        exact absurd same (last c rfl)
      · exact ih later _ fun _ => by simp
  exact unended [] fun empty => absurd empty nonempty

theorem getlines_intercalate {fields : List (List α)} (free : ∀ f ∈ fields, d ∉ f)
    (ended : ∀ f ∈ fields.getLast?, f ≠ []) : getlines d [] ([d].intercalate fields) = fields := by
  induction fields with
  | nil => rfl
  | cons f more ih =>
    obtain ⟨first, others⟩ := List.forall_mem_cons.mp free
    cases more with
    | nil =>
      rw [List.intercalate_singleton, getlines_last first, List.nil_append, if_neg (ended f rfl)]
    | cons g more =>
      rw [List.intercalate_cons_cons, List.append_assoc, List.singleton_append,
        getlines_field first, List.nil_append, ih others (by simpa using ended)]

theorem getlines_flatMap {β : Type*} (line : β → List α) (items : List β)
    (free : ∀ b ∈ items, d ∉ line b) :
    getlines d [] (items.flatMap fun b => line b ++ [d]) = items.map line := by
  induction items with
  | nil => rfl
  | cons b items ih =>
    obtain ⟨first, others⟩ := List.forall_mem_cons.mp free
    rw [List.flatMap_cons, List.append_assoc, List.singleton_append, getlines_field first,
      List.nil_append, ih others, List.map_cons]

theorem count_intercalate {fields : List (List α)} (free : ∀ f ∈ fields, d ∉ f)
    (nonempty : fields ≠ []) : ([d].intercalate fields).count d + 1 = fields.length := by
  induction fields with
  | nil => exact absurd rfl nonempty
  | cons f more ih =>
    obtain ⟨first, others⟩ := List.forall_mem_cons.mp free
    cases more with
    | nil => simp [List.count_eq_zero.mpr first]
    | cons g more =>
      have behind := ih others (List.cons_ne_nil g more)
      rw [List.intercalate_cons_cons, List.append_assoc, List.singleton_append, List.count_append,
        List.count_eq_zero.mpr first, List.count_cons_self, Nat.zero_add, behind]
      rfl

/-- A text with a delimiter less than parts is those parts with delimiters between. -/
theorem intercalate_getlines (bars : s.count d + 1 = (getlines d [] s).length) :
    [d].intercalate (getlines d [] s) = s := by
  generalize cut : getlines d [] s = fields at bars
  induction fields generalizing s with
  | nil => simp at bars
  | cons first more ih =>
    obtain ⟨none, ⟨rfl, rfl⟩ | ⟨rest, rfl, behind⟩⟩ := getlines_cons cut
    · exact List.intercalate_singleton
    · rw [List.count_append, List.count_eq_zero.mpr none, List.count_cons_self, Nat.zero_add,
        List.length_cons, Nat.add_right_cancel_iff] at bars
      cases more with
      | nil => simp at bars
      | cons second more =>
        rw [List.intercalate_cons_cons, ih behind bars, List.append_assoc, List.singleton_append]

end Kit.Getline
