import EtradePipeline.Kit.Json.Strings

/-! Objects that are written without blanks: the parser reads the members that were written. -/

namespace Kit.Json

variable {rest : List UInt8}

/-! ### Written values -/

/-- The text goes on behind a value of an object. -/
def Ends (rest : List UInt8) : Prop := ∃ c cs, rest = c :: cs ∧ (c = char ',' ∨ c = char '\x7d')

/-- The text is read as the value, and it does not start with a blank. -/
structure Writes (text : List UInt8) (v : Value) : Prop where
  solid : ∀ rest, skip (text ++ rest) = text ++ rest
  reads : ∀ fuel rest, Ends rest → value (fuel + 1) (text ++ rest) = some (v, rest)

theorem skip_cons {c : UInt8} (solid : isBlank c = false) (s : List UInt8) :
    skip (c :: s) = c :: s := by
  simp [skip, solid]

theorem writes_string {text : List UInt8} (plain : ∀ c ∈ text, Plain c) :
    Writes (char '"' :: (text ++ [char '"'])) (.str (text.map UInt8.toNat)) where
  solid rest := skip_cons (by decide) _
  reads fuel rest _ := by
    have scanned := (decodes_plain plain).scanned rest
    simp [value, scanned]

theorem takeWhile_isDigit {ds rest : List UInt8} (digits : ∀ c ∈ ds, isDigit c = true)
    (stops : ∀ c ∈ rest.head?, isDigit c = false) :
    (ds ++ rest).takeWhile isDigit = ds ∧ (ds ++ rest).dropWhile isDigit = rest := by
  rw [List.takeWhile_append_of_pos digits, List.dropWhile_append_of_pos digits]
  cases rest with
  | nil => simp
  | cons c cs => simp [stops c rfl]

/-- An unsigned number in decimals without a power of ten, with no point when nothing is behind
it. -/
def magnitudeText (whole part : List UInt8) : List UInt8 :=
  whole ++ if part = [] then [] else char '.' :: part

/-- The number that digits before and behind a point denote. -/
def decimal (whole part : List UInt8) : ℚ := ofDigits (whole ++ part) / 10 ^ part.length

section

variable {whole part : List UInt8}

theorem Ends.stops (ends : Ends rest) : ∀ c ∈ rest.head?, isDigit c = false ∧ c ≠ char '.' := by
  obtain ⟨c, cs, rfl, mark⟩ := ends
  rintro _ ⟨⟩
  rcases mark with rfl | rfl <;> decide

theorem exponent_ends (ends : Ends rest) : exponent rest = some (0, rest) := by
  obtain ⟨c, cs, rfl, mark⟩ := ends
  rcases mark with rfl | rfl <;> rfl

theorem fraction_text (digits : ∀ c ∈ part, isDigit c = true) (ends : Ends rest) :
    fraction ((if part = [] then [] else char '.' :: part) ++ rest) = some (part, rest) := by
  have taken := takeWhile_isDigit digits fun c first => (ends.stops c first).1
  by_cases empty : part = []
  · have noPoint : rest.head? ≠ some (char '.') := fun first => (ends.stops _ first).2 rfl
    simp [fraction, empty, noPoint]
  · simp [fraction, empty, taken]

theorem pointed_stops (part : List UInt8) (ends : Ends rest) :
    ∀ c ∈ ((if part = [] then [] else char '.' :: part) ++ rest).head?, isDigit c = false := by
  intro c first
  split_ifs at first
  · exact (ends.stops c first).1
  · cases first
    decide

theorem magnitude_text (digits : ∀ c ∈ whole, isDigit c = true) (nonempty : whole ≠ [])
    (needed : whole.head? = some (char '0') → whole = [char '0'])
    (parts : ∀ c ∈ part, isDigit c = true) (ends : Ends rest) :
    magnitude (magnitudeText whole part ++ rest) = some (decimal whole part, rest) := by
  obtain ⟨takeWhole, dropWhole⟩ := takeWhile_isDigit digits (pointed_stops part ends)
  have wanted : ¬ (whole = [] ∨ whole.head? = some (char '0') ∧ whole ≠ [char '0']) := by
    rintro (empty | ⟨zero, more⟩)
    · exact nonempty empty
    · exact more (needed zero)
  simp only [magnitude, magnitudeText, List.append_assoc, takeWhole, dropWhole, if_neg wanted,
    fraction_text parts ends, Option.bind_eq_bind, Option.bind_some, exponent_ends ends]
  simp [decimal]

theorem not_blank_of_digit {c : UInt8} (digit : isDigit c = true) :
    isBlank c = false ∧ c ∉ "-\"\x7b[tfn".toList.map char := by
  have all : ∀ n : Fin 256, isDigit (UInt8.ofFin n) = true →
      isBlank (UInt8.ofFin n) = false ∧ UInt8.ofFin n ∉ "-\"\x7b[tfn".toList.map char := by
    decide +kernel
  exact all c.toFin digit

/-- A text that starts with a digit or a minus is read as a number. -/
theorem writes_number {c : UInt8} {cs : List UInt8} {x : ℚ}
    (starts : c = char '-' ∨ isDigit c = true)
    (reads : ∀ rest, Ends rest → number (c :: cs ++ rest) = some (x, rest)) :
    Writes (c :: cs) (.num x) := by
  have marks : isBlank c = false ∧ c ∉ "\"\x7b[tfn".toList.map char := by
    rcases starts with rfl | digit
    · decide
    · obtain ⟨solid, other⟩ := not_blank_of_digit digit
      exact ⟨solid, fun mark => other (List.mem_cons_of_mem _ mark)⟩
  have differs : c ≠ char '"' ∧ c ≠ char '\x7b' ∧ c ≠ char '[' ∧ c ≠ char 't' ∧ c ≠ char 'f' ∧
      c ≠ char 'n' := by
    simpa using marks.2
  refine ⟨fun rest => skip_cons marks.1 _, fun fuel rest ends => ?_⟩
  have read := reads rest ends
  rw [List.cons_append] at read ⊢
  simp only [value, List.head?_cons, differs, if_false, read, Option.map_some]

theorem writes_magnitude (digits : ∀ c ∈ whole, isDigit c = true) (nonempty : whole ≠ [])
    (needed : whole.head? = some (char '0') → whole = [char '0'])
    (parts : ∀ c ∈ part, isDigit c = true) :
    Writes (magnitudeText whole part) (.num (decimal whole part)) := by
  have unsigned := fun rest => @magnitude_text rest _ _ digits nonempty needed parts
  obtain ⟨d, ds, rfl⟩ := List.exists_cons_of_ne_nil nonempty
  have digit := digits d List.mem_cons_self
  have notMinus : d ≠ char '-' := by
    rintro rfl
    exact absurd digit (by decide)
  refine writes_number (.inr digit) fun rest ends => ?_
  rw [number, if_neg (by simpa using notMinus)]
  exact unsigned rest ends

theorem writes_negative (digits : ∀ c ∈ whole, isDigit c = true) (nonempty : whole ≠ [])
    (needed : whole.head? = some (char '0') → whole = [char '0'])
    (parts : ∀ c ∈ part, isDigit c = true) :
    Writes (char '-' :: magnitudeText whole part) (.num (-decimal whole part)) := by
  refine writes_number (.inl rfl) fun rest ends => ?_
  rw [number, List.cons_append, List.head?_cons, if_pos rfl, List.tail_cons,
    magnitude_text digits nonempty needed parts ends]
  rfl

end

/-- A member of an object: its key, and its value with a text that is read as it. -/
structure Entry where
  key : List UInt8
  text : List UInt8
  value : Value
  plain : ∀ c ∈ key, Plain c
  writes : Writes text value

namespace Entry

def member (e : Entry) : List Nat × Value := (e.key.map UInt8.toNat, e.value)

def written (e : Entry) : List UInt8 := char '"' :: (e.key ++ char '"' :: char ':' :: e.text)

end Entry

/-- An object without blanks. -/
def objectText (entries : List Entry) : List UInt8 :=
  char '\x7b' :: ([char ','].intercalate (entries.map Entry.written) ++ [char '\x7d'])

theorem members_entry (e : Entry) (n fuel : Nat) (ends : Ends rest) :
    members (value (n + 1)) (fuel + 1) (e.written ++ rest) =
      if (skip rest).head? = some (char '\x7d') then some ([e.member], (skip rest).tail)
      else if (skip rest).head? = some (char ',') then
        (members (value (n + 1)) fuel (skip (skip rest).tail)).map fun (ms, s) =>
          (e.member :: ms, s)
      else none := by
  have scanned := (decodes_plain e.plain).scanned (char ':' :: (e.text ++ rest))
  have colon := skip_cons (by decide : isBlank (char ':') = false) (e.text ++ rest)
  have text : e.written ++ rest =
      char '"' :: (e.key ++ char '"' :: (char ':' :: (e.text ++ rest))) := by
    simp [Entry.written]
  rw [members, text, List.head?_cons, if_pos rfl, List.tail_cons, scanned]
  simp only [Option.bind_eq_bind, Option.bind_some, colon, List.head?_cons, if_true, List.tail_cons,
    e.writes.solid, e.writes.reads n rest ends, Option.map_eq_bind]
  rfl

theorem skip_written (e : Entry) (more : List Entry) (rest : List UInt8) :
    skip ([char ','].intercalate ((e :: more).map Entry.written) ++ rest) =
      [char ','].intercalate ((e :: more).map Entry.written) ++ rest := by
  cases more <;> exact skip_cons (by decide) _

theorem members_written {entries : List Entry} (nonempty : entries ≠ []) {fuel : Nat}
    (enough : entries.length ≤ fuel) (n : Nat) (rest : List UInt8) :
    members (value (n + 1)) fuel
        ([char ','].intercalate (entries.map Entry.written) ++ char '\x7d' :: rest) =
      some (entries.map Entry.member, rest) := by
  induction entries generalizing fuel with
  | nil => exact absurd rfl nonempty
  | cons e more ih =>
    obtain ⟨fuel, rfl⟩ := Nat.exists_eq_add_one_of_ne_zero (by simp at enough; omega : fuel ≠ 0)
    cases more with
    | nil =>
      have brace := skip_cons (by decide : isBlank (char '\x7d') = false) rest
      have ends : Ends (char '\x7d' :: rest) := ⟨_, _, rfl, .inr rfl⟩
      rw [List.map_singleton, List.intercalate_singleton, members_entry e n fuel ends, brace,
        List.head?_cons, if_pos rfl]
      rfl
    | cons next more =>
      have read := ih (List.cons_ne_nil _ _) (Nat.le_of_succ_le_succ enough)
      have text : [char ','].intercalate ((e :: next :: more).map Entry.written) ++
        char '\x7d' :: rest =
          e.written ++ char ',' ::
            ([char ','].intercalate ((next :: more).map Entry.written) ++ char '\x7d' :: rest) := by
        simp [List.intercalate_cons_cons]
      have differs : some (char ',') ≠ some (char '\x7d') := by decide
      have comma := fun s => skip_cons (by decide : isBlank (char ',') = false) s
      have ends : ∀ s, Ends (char ',' :: s) := fun s => ⟨_, s, rfl, .inl rfl⟩
      rw [text, members_entry e n fuel (ends _), comma, List.head?_cons, if_neg differs, if_pos rfl,
        List.tail_cons, skip_written, read]
      rfl

theorem length_le_written (entries : List Entry) :
    entries.length ≤ ([char ','].intercalate (entries.map Entry.written)).length := by
  have one : ∀ e : Entry, 1 ≤ e.written.length := fun e => by simp [Entry.written]
  induction entries with
  | nil => exact Nat.zero_le _
  | cons e more ih =>
    cases more with
    | nil => simpa using one e
    | cons next more =>
      have first := one e
      simp only [List.map_cons, List.intercalate_cons_cons, List.length_append, List.length_cons]
        at ih ⊢
      omega

/-- A written object is read as the members written. -/
theorem parse_objectText (entries : List Entry) :
    parse (objectText entries) = some (.obj (entries.map Entry.member)) := by
  cases entries with
  | nil => rfl
  | cons e more =>
    have length := length_le_written (e :: more)
    obtain ⟨n, fuel⟩ : ∃ n, (objectText (e :: more)).length = n + 1 := ⟨_, rfl⟩
    have enough : (e :: more).length ≤ n + 1 := by
      rw [← fuel]
      refine length.trans ?_
      simp only [objectText, List.length_cons, List.length_append]
      omega
    have read := members_written (List.cons_ne_nil e more) enough n []
    have brace : isBlank (char '\x7b') = false ∧ char '\x7b' ≠ char '"' := by decide
    have first : (([char ','].intercalate ((e :: more).map Entry.written) ++ [char '\x7d']).head? ≠
        some (char '\x7d')) := by
      cases more <;> exact (by decide : some (char '"') ≠ some (char '\x7d'))
    have valued : value (n + 2) (objectText (e :: more)) =
        some (.obj ((e :: more).map Entry.member), []) := by
      rw [objectText, value, List.head?_cons]
      simp only [brace.2, if_false, if_true, List.tail_cons, skip_written, if_neg first, read,
        Option.map_some]
    rw [parse, fuel, objectText, skip_cons brace.1, ← objectText, valued]
    rfl

end Kit.Json
