import EtradePipeline.Kit.Json.Parser
import EtradePipeline.Kit.Search
import Mathlib.Data.List.Count
import Mathlib.Data.List.TakeWhile

/-! The strings of a JSON text.  Whatever string the parser gives stands in the text between quotes,
and each quote or backslash that it stands for takes a backslash there. -/

namespace Kit.Json

/-! ### The characters of a string -/

/-- The characters from a point of a string to its closing quote, and the units that they stand
for. -/
inductive Decodes : Mode → List UInt8 → List Nat → Prop
  | done : Decodes .plain [] []
  | char {cs : List UInt8} {units : List Nat} (c : UInt8) (notQuote : c ≠ char '"')
      (notBackslash : c ≠ char '\\') (printed : ¬ c < 32) (more : Decodes .plain cs units) :
      Decodes .plain (c :: cs) (c.toNat :: units)
  | backslash {cs : List UInt8} {units : List Nat} (more : Decodes .escaped cs units) :
      Decodes .plain (Json.char '\\' :: cs) units
  | escape {cs : List UInt8} {units : List Nat} (c : UInt8) (unit : Nat)
      (stands : escapeUnit c = some unit) (more : Decodes .plain cs units) :
      Decodes .escaped (c :: cs) (unit :: units)
  | unicode {cs : List UInt8} {units : List Nat} (more : Decodes (.hex 3 0) cs units) :
      Decodes .escaped (Json.char 'u' :: cs) units
  | digit {cs : List UInt8} {units : List Nat} {left first : Nat} (c : UInt8) (d : Nat)
      (isDigit : hexValue c = some d) (more : Decodes (.hex left (16 * first + d)) cs units) :
      Decodes (.hex (left + 1) first) (c :: cs) units
  | last {cs : List UInt8} {units : List Nat} {first : Nat} (c : UInt8) (d : Nat)
      (isDigit : hexValue c = some d) (more : Decodes .plain cs units) :
      Decodes (.hex 0 first) (c :: cs) ((16 * first + d) :: units)

variable {mode : Mode} {s cs rest : List UInt8} {units : List Nat}

theorem decodes_of_scanString (scanned : scanString mode s = some (units, rest)) :
    ∃ cs, Decodes mode cs units ∧ s = cs ++ char '"' :: rest := by
  fun_induction scanString mode s generalizing units with
  | case1 => cases scanned
  | case2 cs => cases scanned; exact ⟨[], .done, rfl⟩
  | case3 cs notQuote ih =>
    obtain ⟨cs, decodes, rfl⟩ := ih scanned
    exact ⟨_, .backslash decodes, rfl⟩
  | case4 => cases scanned
  | case5 c cs notQuote notBackslash printed ih =>
    obtain ⟨⟨more, left⟩, scanned, same⟩ := Option.map_eq_some_iff.mp scanned
    cases same
    obtain ⟨cs, decodes, rfl⟩ := ih scanned
    exact ⟨_, .char c notQuote notBackslash printed decodes, rfl⟩
  | case6 cs ih =>
    obtain ⟨cs, decodes, rfl⟩ := ih scanned
    exact ⟨_, .unicode decodes, rfl⟩
  | case7 => cases scanned
  | case8 c cs notU unit stands ih =>
    obtain ⟨⟨more, left⟩, scanned, same⟩ := Option.map_eq_some_iff.mp scanned
    cases same
    obtain ⟨cs, decodes, rfl⟩ := ih scanned
    exact ⟨_, .escape c unit stands decodes, rfl⟩
  | case9 => cases scanned
  | case10 first c cs d isDigit ih =>
    obtain ⟨⟨more, left⟩, scanned, same⟩ := Option.map_eq_some_iff.mp scanned
    cases same
    obtain ⟨cs, decodes, rfl⟩ := ih scanned
    exact ⟨_, .last c d isDigit decodes, rfl⟩
  | case11 first c cs d isDigit left ih =>
    obtain ⟨cs, decodes, rfl⟩ := ih scanned
    exact ⟨_, .digit c d isDigit decodes, rfl⟩

/-- The scan of a string takes what decodes, up to a quote. -/
theorem Decodes.scanned (decodes : Decodes mode cs units) (rest : List UInt8) :
    scanString mode (cs ++ Json.char '"' :: rest) = some (units, rest) := by
  induction decodes with
  | done => simp [scanString]
  | char c notQuote notBackslash printed more ih =>
    simp [scanString, notQuote, notBackslash, printed, ih]
  | backslash more ih =>
    have differs : Json.char '\\' ≠ Json.char '"' := by decide
    simp [scanString, differs, ih]
  | escape c unit stands more ih =>
    have notU : c ≠ Json.char 'u' := by
      rintro rfl
      cases stands
    simp [scanString, notU, stands, ih]
  | unicode more ih => simp [scanString, ih]
  | digit c d isDigit more ih => simp [scanString, isDigit, ih]
  | last c d isDigit more ih => simp [scanString, isDigit, ih]

/-- The character stands for itself in a string. -/
def Plain (c : UInt8) : Prop := c ≠ char '"' ∧ c ≠ char '\\' ∧ ¬ c < 32

instance : DecidablePred Plain := fun _ => inferInstanceAs (Decidable (_ ∧ _))

theorem decodes_plain (plain : ∀ c ∈ cs, Plain c) :
    Decodes .plain cs (cs.map UInt8.toNat) := by
  induction cs with
  | nil => exact .done
  | cons c cs ih =>
    obtain ⟨⟨notQuote, notBackslash, printed⟩, others⟩ := List.forall_mem_cons.mp plain
    exact .char c notQuote notBackslash printed (ih others)

/-- A character whose unit is written behind a backslash. -/
def Mode.due : Mode → Nat
  | .plain => 0
  | _ => 1

namespace Decodes

/-- Each quote or backslash that a string stands for takes a backslash. -/
theorem escapes_le (decodes : Decodes mode cs units) :
    units.count 34 + units.count 92 ≤ cs.count (Json.char '\\') + mode.due := by
  have one : ∀ unit (units : List Nat),
      (unit :: units).count 34 + (unit :: units).count 92 ≤
        units.count 34 + units.count 92 + 1 := by
    intro unit units
    simp only [List.count_cons, beq_iff_eq]
    split_ifs <;> omega
  have more : ∀ c (cs : List UInt8), cs.count (Json.char '\\') ≤ (c :: cs).count (Json.char '\\') :=
    fun c cs => List.count_le_count_cons
  induction decodes with
  | done => exact Nat.zero_le _
  | @char cs units c notQuote notBackslash printed decodes ih =>
    have quote : c.toNat ≠ 34 := fun same => notQuote (UInt8.toNat_inj.mp same)
    have backslash : c.toNat ≠ 92 := fun same => notBackslash (UInt8.toNat_inj.mp same)
    rw [List.count_cons_of_ne quote, List.count_cons_of_ne backslash]
    exact ih.trans (Nat.add_le_add_right (more c cs) _)
  | backslash decodes ih =>
    rw [List.count_cons_self]
    exact ih
  | @escape cs units c unit stands decodes ih =>
    exact (one unit units).trans (Nat.succ_le_succ (ih.trans (more c cs)))
  | @unicode cs units decodes ih => exact ih.trans (Nat.add_le_add_right (more _ cs) 1)
  | @digit cs units left first c d isDigit decodes ih =>
    exact ih.trans (Nat.add_le_add_right (more c cs) 1)
  | @last cs units first c d isDigit decodes ih =>
    exact (one _ units).trans (Nat.succ_le_succ (ih.trans (more c cs)))

/-- A quote among the characters is one that the string stands for. -/
theorem quotes_le (decodes : Decodes mode cs units) :
    cs.count (Json.char '"') ≤ units.count 34 := by
  have hexQuote : ∀ {c d}, hexValue c = some d → c ≠ Json.char '"' := by
    rintro c d isDigit rfl
    cases isDigit
  induction decodes with
  | done => exact Nat.zero_le _
  | char c notQuote notBackslash printed decodes ih =>
    rw [List.count_cons_of_ne notQuote]
    exact ih.trans List.count_le_count_cons
  | backslash decodes ih =>
    rw [List.count_cons_of_ne (by decide)]
    exact ih
  | escape c unit stands decodes ih =>
    by_cases quote : c = Json.char '"'
    · subst quote
      obtain rfl : 34 = unit := Option.some.inj stands
      rw [List.count_cons_self, List.count_cons_self]
      exact Nat.succ_le_succ ih
    · rw [List.count_cons_of_ne quote]
      exact ih.trans List.count_le_count_cons
  | unicode decodes ih =>
    rw [List.count_cons_of_ne (by decide)]
    exact ih
  | digit c d isDigit decodes ih =>
    rw [List.count_cons_of_ne (hexQuote isDigit)]
    exact ih
  | last c d isDigit decodes ih =>
    rw [List.count_cons_of_ne (hexQuote isDigit)]
    exact ih.trans List.count_le_count_cons

theorem length_le (decodes : Decodes mode cs units) : units.length ≤ cs.length := by
  induction decodes <;> simp only [List.length_cons, List.length_nil] <;> omega

/-- A string with a backslash stands for fewer units than it has characters. -/
theorem length_lt (decodes : Decodes mode cs units) (plain : mode = .plain)
    (escaped : Json.char '\\' ∈ cs) : units.length < cs.length := by
  induction decodes with
  | done => cases escaped
  | char c notQuote notBackslash printed more ih =>
    have later := (List.mem_cons.mp escaped).resolve_left (Ne.symm notBackslash)
    exact Nat.succ_lt_succ (ih rfl later)
  | backslash more ih => exact Nat.lt_succ_of_le more.length_le
  | _ => cases plain

end Decodes

/-! ### What is left -/

/-- What the reader leaves is an end of the text. -/
def Leaves {β : Type} (read : List UInt8 → Option (β × List UInt8)) : Prop :=
  ∀ s v rest, read s = some (v, rest) → rest <:+ s

theorem skip_suffix (s : List UInt8) : skip s <:+ s := List.dropWhile_suffix _

theorem skip_tail_suffix (s : List UInt8) : skip s.tail <:+ s :=
  (skip_suffix _).trans (List.tail_suffix s)

theorem Leaves.map {β γ : Type} {read : List UInt8 → Option (β × List UInt8)} (leaves : Leaves read)
    (f : β → γ) : Leaves fun s => (read s).map fun (v, rest) => (f v, rest) := by
  intro s w rest found
  obtain ⟨⟨v, left⟩, given, same⟩ := Option.map_eq_some_iff.mp found
  cases same
  exact leaves s v rest given

theorem scanString_leaves : Leaves (scanString .plain) := by
  intro s units rest scanned
  obtain ⟨cs, -, rfl⟩ := decodes_of_scanString scanned
  exact (List.suffix_cons _ rest).trans (List.suffix_append cs _)

theorem fraction_leaves : Leaves fraction := by
  intro s part rest taken
  unfold fraction at taken
  simp only at taken
  split_ifs at taken
  · cases taken
    exact (List.dropWhile_suffix _).trans (List.tail_suffix s)
  · cases taken
    exact List.suffix_refl s

theorem exponent_leaves : Leaves exponent := by
  intro s power rest taken
  have tail (b : Prop) [Decidable b] : (if b then s.tail.tail else s.tail) <:+ s := by
    split_ifs
    · exact (List.tail_suffix _).trans (List.tail_suffix s)
    · exact List.tail_suffix s
  simp only [exponent] at taken
  by_cases marked : s.head? = some (char 'e') ∨ s.head? = some (char 'E')
  · rw [if_pos marked, Option.ite_none_left_eq_some] at taken
    obtain ⟨-, same⟩ := taken
    cases same
    exact (List.dropWhile_suffix _).trans (tail _)
  · rw [if_neg marked] at taken
    cases taken
    exact List.suffix_refl s

theorem magnitude_leaves : Leaves magnitude := by
  intro s x rest read
  simp only [magnitude, Option.ite_none_left_eq_some, Option.bind_eq_bind, Option.bind_eq_some_iff]
    at read
  obtain ⟨-, ⟨part, s₁⟩, pointed, ⟨power, s₂⟩, powered, same⟩ := read
  cases same
  exact (exponent_leaves _ _ _ powered).trans
    ((fraction_leaves _ _ _ pointed).trans (List.dropWhile_suffix _))

theorem number_leaves : Leaves number := by
  intro s x rest read
  unfold number at read
  split_ifs at read
  · exact (magnitude_leaves.map _ _ _ _ read).trans (List.tail_suffix s)
  · exact magnitude_leaves _ _ _ read

theorem keyword_leaves (word : List UInt8) (v : Value) : Leaves (keyword word v) := by
  intro s v rest read
  unfold keyword at read
  split_ifs at read
  cases read
  exact List.drop_suffix _ s

/-- A member of an object is read, and behind it either the object ends or its other members are. -/
theorem members_eq_some {value : List UInt8 → Option (Value × List UInt8)} {fuel : Nat}
    {ms : List (List Nat × Value)} (read : members value fuel s = some (ms, rest)) :
    ∃ fuel' key s₁ v s₂, fuel = fuel' + 1 ∧ s.head? = some (char '"') ∧
      scanString .plain s.tail = some (key, s₁) ∧ value (skip (skip s₁).tail) = some (v, s₂) ∧
      (ms = [(key, v)] ∧ rest = (skip s₂).tail ∨
        ∃ ms', members value fuel' (skip (skip s₂).tail) = some (ms', rest) ∧
          ms = (key, v) :: ms') := by
  cases fuel with
  | zero => cases read
  | succ fuel =>
    simp only [members, Option.ite_none_right_eq_some, Option.bind_eq_bind, Option.bind_eq_some_iff]
      at read
    obtain ⟨quote, ⟨key, s₁⟩, scanned, -, ⟨v, s₂⟩, valued, read⟩ := read
    refine ⟨fuel, key, s₁, v, s₂, rfl, quote, scanned, valued, ?_⟩
    split_ifs at read
    · cases read
      exact .inl ⟨rfl, rfl⟩
    · obtain ⟨⟨ms', s₃⟩, others, same⟩ := Option.bind_eq_some_iff.mp read
      cases same
      exact .inr ⟨ms', others, rfl⟩

theorem items_eq_some {value : List UInt8 → Option (Value × List UInt8)} {fuel : Nat}
    {vs : List Value} (read : items value fuel s = some (vs, rest)) :
    ∃ fuel' v s₁, fuel = fuel' + 1 ∧ value s = some (v, s₁) ∧
      (vs = [v] ∧ rest = (skip s₁).tail ∨
        ∃ vs', items value fuel' (skip (skip s₁).tail) = some (vs', rest) ∧ vs = v :: vs') := by
  cases fuel with
  | zero => cases read
  | succ fuel =>
    simp only [items, Option.bind_eq_bind, Option.bind_eq_some_iff] at read
    obtain ⟨⟨v, s₁⟩, valued, read⟩ := read
    refine ⟨fuel, v, s₁, rfl, valued, ?_⟩
    split_ifs at read
    · cases read
      exact .inl ⟨rfl, rfl⟩
    · obtain ⟨⟨vs', s₂⟩, others, same⟩ := Option.bind_eq_some_iff.mp read
      cases same
      exact .inr ⟨vs', others, rfl⟩

theorem members_leaves {value : List UInt8 → Option (Value × List UInt8)} (leaves : Leaves value)
    (fuel : Nat) : Leaves (members value fuel) := by
  induction fuel with
  | zero => intro s ms rest read; cases read
  | succ fuel ih =>
    intro s ms rest read
    obtain ⟨_, key, s₁, v, s₂, ⟨⟩, -, scanned, valued, behind⟩ := members_eq_some read
    have upTo : skip s₂ <:+ s :=
      (skip_suffix s₂).trans ((leaves _ _ _ valued).trans ((skip_tail_suffix _).trans
        ((skip_suffix s₁).trans ((scanString_leaves _ _ _ scanned).trans (List.tail_suffix s)))))
    obtain ⟨-, rfl⟩ | ⟨ms', others, -⟩ := behind
    · exact (List.tail_suffix _).trans upTo
    · exact (ih _ _ _ others).trans ((skip_tail_suffix _).trans upTo)

theorem items_leaves {value : List UInt8 → Option (Value × List UInt8)} (leaves : Leaves value)
    (fuel : Nat) : Leaves (items value fuel) := by
  induction fuel with
  | zero => intro s vs rest read; cases read
  | succ fuel ih =>
    intro s vs rest read
    obtain ⟨_, v, s₁, ⟨⟩, valued, behind⟩ := items_eq_some read
    have upTo : skip s₁ <:+ s := (skip_suffix s₁).trans (leaves _ _ _ valued)
    obtain ⟨-, rfl⟩ | ⟨vs', others, -⟩ := behind
    · exact (List.tail_suffix _).trans upTo
    · exact (ih _ _ _ others).trans ((skip_tail_suffix _).trans upTo)

theorem value_leaves (fuel : Nat) : Leaves (value fuel) := by
  induction fuel with
  | zero => intro s v rest read; cases read
  | succ fuel ih =>
    intro s v rest read
    cases first : s.head? with
    | none => simp [value, first] at read
    | some c =>
      simp only [value, first] at read
      split_ifs at read
      · exact (scanString_leaves.map _ _ _ _ read).trans (List.tail_suffix s)
      · cases read
        exact (List.tail_suffix _).trans (skip_tail_suffix s)
      · exact ((members_leaves ih fuel).map _ _ _ _ read).trans (skip_tail_suffix s)
      · cases read
        exact (List.tail_suffix _).trans (skip_tail_suffix s)
      · exact ((items_leaves ih fuel).map _ _ _ _ read).trans (skip_tail_suffix s)
      · exact keyword_leaves _ _ _ _ _ read
      · exact keyword_leaves _ _ _ _ _ read
      · exact keyword_leaves _ _ _ _ _ read
      · exact number_leaves.map _ _ _ _ read

/-! ### The strings of a text -/

/-- The text has a string that stands for the units. -/
def HasString (s : List UInt8) (units : List Nat) : Prop :=
  ∃ before cs rest, s = before ++ char '"' :: (cs ++ char '"' :: rest) ∧ Decodes .plain cs units

theorem HasString.of_suffix {t : List UInt8} (has : HasString s units) (ends : s <:+ t) :
    HasString t units := by
  obtain ⟨before, cs, rest, rfl, decodes⟩ := has
  obtain ⟨first, rfl⟩ := ends
  exact ⟨first ++ before, cs, rest, by rw [List.append_assoc], decodes⟩

theorem hasString_of_value {fuel : Nat} (read : value fuel s = some (.str units, rest)) :
    HasString s units := by
  cases fuel with
  | zero => cases read
  | succ fuel =>
    cases first : s.head? with
    | none => simp [value, first] at read
    | some c =>
      simp only [value, first, keyword] at read
      split_ifs at read with quote
      -- Only the first branch gives a string.
      · obtain ⟨⟨more, left⟩, scanned, same⟩ := Option.map_eq_some_iff.mp read
        cases same
        obtain ⟨cs, decodes, text⟩ := decodes_of_scanString scanned
        refine ⟨[], cs, left, ?_, decodes⟩
        rw [List.nil_append, ← text, ← quote]
        exact List.eq_cons_of_mem_head? first
      all_goals simp at read

theorem hasString_of_members {fuel n : Nat} {ms : List (List Nat × Value)} {key : List Nat}
    (read : members (value fuel) n s = some (ms, rest)) (member : (key, .str units) ∈ ms) :
    HasString s units := by
  induction n generalizing s ms with
  | zero => cases read
  | succ n ih =>
    obtain ⟨_, key', s₁, v, s₂, ⟨⟩, -, scanned, valued, behind⟩ := members_eq_some read
    have upTo : skip (skip s₁).tail <:+ s := (skip_tail_suffix _).trans
      ((skip_suffix s₁).trans ((scanString_leaves _ _ _ scanned).trans (List.tail_suffix s)))
    have here (same : v = .str units) : HasString s units :=
      (hasString_of_value (same ▸ valued)).of_suffix upTo
    obtain ⟨rfl, -⟩ | ⟨ms', others, rfl⟩ := behind
    · exact here (Prod.mk.inj (List.mem_singleton.mp member)).2.symm
    · obtain same | later := List.mem_cons.mp member
      · exact here (Prod.mk.inj same).2.symm
      · refine (ih others later).of_suffix ((skip_tail_suffix _).trans ?_)
        exact (skip_suffix s₂).trans ((value_leaves _ _ _ _ valued).trans upTo)

theorem members_of_value {fuel : Nat} {ms : List (List Nat × Value)}
    (read : value fuel s = some (.obj ms, rest)) :
    ms = [] ∨ ∃ fuel n, members (value fuel) n (skip s.tail) = some (ms, rest) := by
  cases fuel with
  | zero => cases read
  | succ fuel =>
    cases first : s.head? with
    | none => simp [value, first] at read
    | some c =>
      simp only [value, first, keyword] at read
      split_ifs at read
      -- Only the two branches behind a brace give an object.
      · simp at read
      · cases read
        exact .inl rfl
      · obtain ⟨⟨ms, left⟩, others, same⟩ := Option.map_eq_some_iff.mp read
        cases same
        exact .inr ⟨fuel, fuel, others⟩
      all_goals simp at read

theorem mem_of_get? {ms : List (List Nat × Value)} {key : List Nat} {v : Value}
    (found : get? key ms = some v) : (key, v) ∈ ms := by
  obtain ⟨⟨key', v⟩, first, rfl⟩ := Option.map_eq_some_iff.mp found
  have same := List.find?_some first
  obtain rfl : key' = key := of_decide_eq_true same
  exact List.mem_reverse.mp (List.mem_of_find?_eq_some first)

/-- A string under a key of a text's object stands in the text. -/
theorem hasString_of_parse {ms : List (List Nat × Value)} {key : List Nat}
    (parsed : parse s = some (.obj ms)) (found : get? key ms = some (.str units)) :
    HasString s units := by
  simp only [parse, Option.bind_eq_bind, Option.bind_eq_some_iff] at parsed
  obtain ⟨⟨v, rest⟩, read, ended⟩ := parsed
  split_ifs at ended
  cases ended
  obtain rfl | ⟨fuel, n, others⟩ := members_of_value read
  · cases found
  · exact (hasString_of_members others (mem_of_get? found)).of_suffix
      ((skip_tail_suffix _).trans (skip_suffix s))

/-! ### Pasted strings -/

/-- A text has a backslash for each quote or backslash that one of its strings stands for. -/
theorem HasString.escapes_le (has : HasString s units) :
    units.count 34 + units.count 92 ≤ s.count (char '\\') := by
  obtain ⟨before, cs, rest, rfl, decodes⟩ := has
  have own : units.count 34 + units.count 92 ≤ cs.count (char '\\') := decodes.escapes_le
  have differs : char '"' ≠ char '\\' := by decide
  simp only [List.count_append, List.count_cons_of_ne differs]
  omega

/-- A string that stands for no quotes is one of the pieces between the quotes of the text. -/
theorem HasString.piece (has : HasString s units) (unquoted : units.count 34 = 0) :
    ∃ cs ∈ s.splitOn (char '"'), Decodes .plain cs units := by
  obtain ⟨before, cs, rest, rfl, decodes⟩ := has
  have free : char '"' ∉ cs := List.count_eq_zero.mp (Nat.le_zero.mp (unquoted ▸ decodes.quotes_le))
  refine ⟨cs, ?_, decodes⟩
  rw [List.splitOn_append_cons_self, List.splitOn_append_cons_self_of_not_mem free]
  exact List.mem_append_right _ List.mem_cons_self

theorem count_toNat (cs : List UInt8) (c : UInt8) :
    (cs.map UInt8.toNat).count c.toNat = cs.count c :=
  List.count_map_of_injective cs UInt8.toNat (fun _ _ => UInt8.toNat_inj.mp) c

/-- A text that is pasted between quotes stands for itself only when it has neither quotes nor
backslashes, where the text around it has no backslashes. -/
theorem plain_of_pasted {first second : List (List UInt8)} {x : List UInt8}
    (free : ∀ piece ∈ first ++ second, char '"' ∉ piece ∧ char '\\' ∉ piece)
    (has : HasString ([char '"'].intercalate (first ++ x :: second)) (x.map UInt8.toNat)) :
    char '"' ∉ x ∧ char '\\' ∉ x := by
  have differs : char '\\' ≠ char '"' := by decide
  have quotes : (x.map UInt8.toNat).count 34 = x.count (char '"') := count_toNat x (char '"')
  have backslashes : (x.map UInt8.toNat).count 92 = x.count (char '\\') := count_toNat x (char '\\')
  have escapes := has.escapes_le
  rw [Search.count_intercalate_of_free differs fun p member => (free p member).2] at escapes
  have unquoted : x.count (char '"') = 0 := by omega
  have freeQuote : char '"' ∉ x := List.count_eq_zero.mp unquoted
  refine ⟨freeQuote, fun escaped => ?_⟩
  obtain ⟨cs, member, decodes⟩ := has.piece (quotes.trans unquoted)
  have pieces : ∀ piece ∈ first ++ x :: second, char '"' ∉ piece := by
    simp only [List.mem_append, List.mem_cons]
    rintro piece (early | rfl | late)
    · exact (free piece (List.mem_append_left _ early)).1
    · exact freeQuote
    · exact (free piece (List.mem_append_right _ late)).1
  rw [List.splitOn_intercalate _ pieces (by simp)] at member
  have owned : char '\\' ∈ cs := by
    have own : (x.map UInt8.toNat).count 34 + (x.map UInt8.toNat).count 92 ≤
        cs.count (char '\\') := decodes.escapes_le
    have some : 0 < x.count (char '\\') := List.count_pos_iff.mpr escaped
    exact List.count_pos_iff.mp (by omega)
  obtain rfl : cs = x := by
    simp only [List.mem_append, List.mem_cons] at member
    obtain early | same | late := member
    · exact absurd owned (free cs (List.mem_append_left _ early)).2
    · exact same
    · exact absurd owned (free cs (List.mem_append_right _ late)).2
  have shorter := decodes.length_lt rfl owned
  rw [List.length_map] at shorter
  exact lt_irrefl _ shorter

end Kit.Json
