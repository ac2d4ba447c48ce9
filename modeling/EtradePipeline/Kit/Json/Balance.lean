import EtradePipeline.Kit.Json.Objects

/-! Braces and quotes in JSON texts.  A reader that only knows where strings are finds that the
braces of a text that parses match, and that behind each string comes what may come there. -/

namespace Kit.Json

/-- Where a text is, read from its start: outside of strings, right behind a string, in one, behind
a backslash there, behind a whole object, or where no text that parses gets to. -/
inductive Place where
  | outside
  | closed
  | inside
  | escaped
  | done
  | lost
  deriving DecidableEq

/-- Behind a brace that closes one of `d` objects. -/
def closing (d : Int) : Place × Int := if d = 1 then (.done, 0) else (.outside, d - 1)

/-- What may come behind a string, beside a closing brace. -/
def delimiters : List UInt8 := [char ':', char ',', char ']']

/-- The place, and the number of objects that are open, behind a character. -/
def next (st : Place × Int) (c : UInt8) : Place × Int :=
  match st with
  | (.outside, d) =>
    if c = char '"' then (.inside, d)
    else if c = char '\x7b' then (.outside, d + 1)
    else if c = char '\x7d' then closing d
    else (.outside, d)
  | (.closed, d) =>
    if isBlank c then (.closed, d)
    else if c = char '\x7d' then closing d
    else if c ∈ delimiters then (.outside, d)
    else (.lost, d)
  | (.inside, d) =>
    if c = char '"' then (.closed, d) else if c = char '\\' then (.escaped, d) else (.inside, d)
  | (.escaped, d) => (.inside, d)
  | (.done, d) => if isBlank c then (.done, d) else (.lost, d)
  | (.lost, d) => (.lost, d)

def walk (st : Place × Int) (s : List UInt8) : Place × Int := s.foldl next st

variable {s t rest : List UInt8} {d : Int} {c : UInt8}

@[simp] theorem walk_nil (st : Place × Int) : walk st [] = st := rfl

theorem walk_cons (st : Place × Int) (c : UInt8) (s : List UInt8) :
    walk st (c :: s) = walk (next st c) s := rfl

theorem walk_append (st : Place × Int) (s t : List UInt8) : walk st (s ++ t) = walk (walk st s) t :=
  List.foldl_append

theorem walk_lost (d : Int) (s : List UInt8) : walk (.lost, d) s = (.lost, d) := by
  induction s with
  | nil => rfl
  | cons c s ih => exact ih

theorem next_inside (quote : c ≠ char '"') (backslash : c ≠ char '\\') (d : Int) :
    next (.inside, d) c = (.inside, d) := by
  simp only [next, if_neg quote, if_neg backslash]

/-- No quote and no brace. -/
def Calm (c : UInt8) : Prop := c ≠ char '"' ∧ c ≠ char '\x7b' ∧ c ≠ char '\x7d'

instance : DecidablePred Calm := fun _ => inferInstanceAs (Decidable (_ ∧ _))

theorem walk_calm (calm : ∀ c ∈ s, Calm c) (d : Int) : walk (.outside, d) s = (.outside, d) := by
  induction s with
  | nil => rfl
  | cons c s ih =>
    obtain ⟨⟨quote, brace, ending⟩, others⟩ := List.forall_mem_cons.mp calm
    rw [walk_cons, next, if_neg quote, if_neg brace, if_neg ending]
    exact ih others

/-- Inside an object, the text leads from outside of strings there, or right behind a string. -/
def Leads (s : List UInt8) : Prop :=
  ∀ d, 1 ≤ d → walk (.outside, d) s = (.outside, d) ∨ walk (.outside, d) s = (.closed, d)

/-- Inside an object, the text leads from outside of strings there. -/
def Clears (s : List UInt8) : Prop := ∀ d, 1 ≤ d → walk (.outside, d) s = (.outside, d)

/-- Inside an object, the text leads from outside of strings to its end. -/
def Closes (s : List UInt8) : Prop := ∀ d, 1 ≤ d → walk (.outside, d) s = closing d

theorem Clears.leads (clears : Clears s) : Leads s := fun d inside => .inl (clears d inside)

theorem clears_calm (calm : ∀ c ∈ s, Calm c) : Clears s := fun d _ => walk_calm calm d

theorem Clears.append (first : Clears s) (second : Clears t) : Clears (s ++ t) := fun d inside => by
  rw [walk_append, first d inside, second d inside]

theorem Clears.leads_append (first : Clears s) (second : Leads t) : Leads (s ++ t) :=
  fun d inside => by
  rw [walk_append, first d inside]
  exact second d inside

theorem Clears.closes_append (first : Clears s) (second : Closes t) : Closes (s ++ t) :=
  fun d inside => by
  rw [walk_append, first d inside, second d inside]

theorem calm_of_blank (blank : isBlank c = true) : Calm c := by
  simp only [isBlank, Bool.or_eq_true, decide_eq_true_eq] at blank
  rcases blank with ((rfl | rfl) | rfl) | rfl <;> decide

theorem calm_of_digit (digit : isDigit c = true) : Calm c := by
  simp only [isDigit, Bool.and_eq_true, decide_eq_true_eq] at digit
  refine ⟨?_, ?_, ?_⟩ <;> rintro rfl <;> revert digit <;> decide

theorem walk_closed (blank : ∀ c ∈ s, isBlank c = true) (d : Int) :
    walk (.closed, d) s = (.closed, d) := by
  induction s with
  | nil => rfl
  | cons c s ih =>
    obtain ⟨first, others⟩ := List.forall_mem_cons.mp blank
    rw [walk_cons, next, if_pos first]
    exact ih others

theorem walk_done (blank : ∀ c ∈ s, isBlank c = true) (d : Int) :
    walk (.done, d) s = (.done, d) := by
  induction s with
  | nil => rfl
  | cons c s ih =>
    obtain ⟨first, others⟩ := List.forall_mem_cons.mp blank
    rw [walk_cons, next, if_pos first]
    exact ih others

theorem Leads.blanks (leads : Leads s) (blank : ∀ c ∈ t, isBlank c = true) : Leads (s ++ t) := by
  intro d inside
  rw [walk_append]
  rcases leads d inside with here | here <;> rw [here]
  · exact .inl (walk_calm (fun c member => calm_of_blank (blank c member)) _)
  · exact .inr (walk_closed blank _)

/-- A delimiter may come behind a string. -/
theorem Leads.delimiter (leads : Leads s) (delimits : c ∈ delimiters) : Clears (s ++ [c]) := by
  have others : ∀ c ∈ delimiters, c ≠ char '"' ∧ c ≠ char '\x7b' ∧ c ≠ char '\x7d' ∧
      ¬ isBlank c = true := by decide +kernel
  obtain ⟨quote, brace, ending, solid⟩ := others c delimits
  intro d inside
  rw [walk_append]
  rcases leads d inside with here | here <;> rw [here, walk_cons, walk_nil, next]
  · rw [if_neg quote, if_neg brace, if_neg ending]
  · rw [if_neg solid, if_neg ending, if_pos delimits]

theorem Leads.brace (leads : Leads s) : Closes (s ++ [char '\x7d']) := by
  intro d inside
  rw [walk_append]
  rcases leads d inside with here | here <;> rw [here] <;> rfl

theorem exists_blanks (s : List UInt8) : ∃ b, s = b ++ skip s ∧ ∀ c ∈ b, isBlank c = true :=
  ⟨s.takeWhile isBlank, List.takeWhile_append_dropWhile.symm, fun _ member =>
    List.mem_takeWhile_imp member⟩

/-! ### What the parser takes -/

/-- What is read is a text with the property. -/
def Takes {β : Type} (P : List UInt8 → Prop) (read : List UInt8 → Option (β × List UInt8)) : Prop :=
  ∀ s v rest, read s = some (v, rest) → ∃ seg, s = seg ++ rest ∧ P seg

theorem Takes.map {β γ : Type} {P : List UInt8 → Prop} {read : List UInt8 → Option (β × List UInt8)}
    (takes : Takes P read) (f : β → γ) :
    Takes P fun s => (read s).map fun (v, rest) => (f v, rest) := by
  intro s w rest found
  obtain ⟨⟨v, left⟩, given, same⟩ := Option.map_eq_some_iff.mp found
  cases same
  exact takes s v rest given

/-- Where the scan of a string is. -/
def Mode.place : Mode → Place
  | .plain | .hex _ _ => .inside
  | .escaped => .escaped

theorem hexValue_marks : hexValue (char '"') = none ∧ hexValue (char '\\') = none := by decide

theorem walk_decodes {mode : Mode} {units : List Nat} (decodes : Decodes mode s units) (d : Int) :
    walk (mode.place, d) s = (.inside, d) := by
  have hex : ∀ {c : UInt8} {v : Nat}, hexValue c = some v → next (.inside, d) c = (.inside, d) := by
    intro c v value
    refine next_inside ?_ ?_ d <;> rintro rfl
    · rw [hexValue_marks.1] at value
      cases value
    · rw [hexValue_marks.2] at value
      cases value
  induction decodes with
  | done => rfl
  | char c notQuote notBackslash printed more ih =>
    rw [Mode.place, walk_cons, next_inside notQuote notBackslash]
    exact ih
  | backslash more ih | escape c unit stands more ih | unicode more ih => exact ih
  | digit c v isDigit more ih | last c v isDigit more ih =>
    rw [Mode.place, walk_cons, hex isDigit]
    exact ih

/-- A string with its quotes. -/
theorem leads_scanned {units : List Nat} (scanned : scanString .plain s = some (units, rest)) :
    ∃ seg, s = seg ++ rest ∧ Leads (char '"' :: seg) := by
  obtain ⟨cs, decodes, rfl⟩ := decodes_of_scanString scanned
  refine ⟨cs ++ [char '"'], by simp, fun d _ => .inr ?_⟩
  have inside : walk (.inside, d) cs = (.inside, d) := walk_decodes decodes d
  have opened : next (.outside, d) (char '"') = (.inside, d) := rfl
  rw [walk_cons, opened, walk_append, inside]
  rfl

theorem fraction_takes : Takes (fun seg => ∀ c ∈ seg, Calm c) fraction := by
  intro s part rest taken
  simp only [fraction] at taken
  split_ifs at taken with point
  · cases taken
    obtain ⟨tail, rfl⟩ := List.head?_eq_some_iff.mp point
    refine ⟨char '.' :: tail.takeWhile isDigit, ?_,
      List.forall_mem_cons.mpr ⟨by decide, fun c member => ?_⟩⟩
    · rw [List.cons_append, List.tail_cons, List.takeWhile_append_dropWhile]
    · exact calm_of_digit (List.mem_takeWhile_imp member)
  · cases taken
    exact ⟨[], rfl, List.forall_mem_nil _⟩

theorem exponent_takes : Takes (fun seg => ∀ c ∈ seg, Calm c) exponent := by
  intro s power rest taken
  have digits : ∀ t : List UInt8, ∀ c ∈ t.takeWhile isDigit, Calm c :=
    fun t c member => calm_of_digit (List.mem_takeWhile_imp member)
  simp only [exponent] at taken
  by_cases marked : s.head? = some (char 'e') ∨ s.head? = some (char 'E')
  · rw [if_pos marked, Option.ite_none_left_eq_some] at taken
    obtain ⟨-, same⟩ := taken
    obtain ⟨mark, tail, rfl, calm⟩ : ∃ mark tail, s = mark :: tail ∧ Calm mark := by
      rcases marked with first | first <;> obtain ⟨tail, rfl⟩ := List.head?_eq_some_iff.mp first
      · exact ⟨_, tail, rfl, by decide⟩
      · exact ⟨_, tail, rfl, by decide⟩
    rw [List.tail_cons] at same
    by_cases signed : tail.head? = some (char '-') ∨ tail.head? = some (char '+')
    · obtain ⟨sign, after, rfl, calm'⟩ : ∃ sign after, tail = sign :: after ∧ Calm sign := by
        rcases signed with first | first <;> obtain ⟨after, rfl⟩ := List.head?_eq_some_iff.mp first
        · exact ⟨_, after, rfl, by decide⟩
        · exact ⟨_, after, rfl, by decide⟩
      simp only [decide_eq_true_eq, if_pos signed, List.tail_cons] at same
      obtain ⟨-, rfl⟩ := Prod.mk.inj (Option.some.inj same)
      refine ⟨mark :: sign :: after.takeWhile isDigit, ?_,
        List.forall_mem_cons.mpr ⟨calm, List.forall_mem_cons.mpr ⟨calm', digits after⟩⟩⟩
      rw [List.cons_append, List.cons_append, List.takeWhile_append_dropWhile]
    · simp only [decide_eq_true_eq, if_neg signed] at same
      obtain ⟨-, rfl⟩ := Prod.mk.inj (Option.some.inj same)
      refine ⟨mark :: tail.takeWhile isDigit, ?_, List.forall_mem_cons.mpr ⟨calm, digits tail⟩⟩
      rw [List.cons_append, List.takeWhile_append_dropWhile]
  · rw [if_neg marked] at taken
    cases taken
    exact ⟨[], rfl, List.forall_mem_nil _⟩

theorem magnitude_takes : Takes (fun seg => ∀ c ∈ seg, Calm c) magnitude := by
  intro s x rest read
  simp only [magnitude, Option.ite_none_left_eq_some, Option.bind_eq_bind, Option.bind_eq_some_iff]
    at read
  obtain ⟨-, ⟨part, s₁⟩, pointed, ⟨power, s₂⟩, powered, same⟩ := read
  cases same
  obtain ⟨fractional, split₁, calm₁⟩ := fraction_takes _ _ _ pointed
  obtain ⟨exponential, split₂, calm₂⟩ := exponent_takes _ _ _ powered
  refine ⟨s.takeWhile isDigit ++ (fractional ++ exponential), ?_, ?_⟩
  · rw [List.append_assoc, List.append_assoc, ← split₂, ← split₁, List.takeWhile_append_dropWhile]
  · exact List.forall_mem_append.mpr ⟨fun c member => calm_of_digit (List.mem_takeWhile_imp member),
      List.forall_mem_append.mpr ⟨calm₁, calm₂⟩⟩

theorem number_takes : Takes (fun seg => ∀ c ∈ seg, Calm c) number := by
  intro s x rest read
  unfold number at read
  split_ifs at read with negative
  · obtain ⟨tail, rfl⟩ := List.head?_eq_some_iff.mp negative
    obtain ⟨seg, split, calm⟩ := magnitude_takes.map _ _ _ _ read
    exact ⟨char '-' :: seg, congrArg (List.cons _) split,
      List.forall_mem_cons.mpr ⟨by decide, calm⟩⟩
  · exact magnitude_takes _ _ _ read

theorem keyword_takes {word : List UInt8} (calm : ∀ c ∈ word, Calm c) (v : Value) :
    Takes (fun seg => ∀ c ∈ seg, Calm c) (keyword word v) := by
  intro s w rest read
  unfold keyword at read
  split_ifs at read with starts
  cases read
  obtain ⟨behind, rfl⟩ := starts
  exact ⟨word, by rw [List.drop_left], calm⟩

/-! ### Values -/

section Values

variable {read : List UInt8 → Option (Value × List UInt8)}

/-- Blanks, and a delimiter behind them. -/
theorem delimited (leads : Leads s) (delimits : c ∈ delimiters)
    (behind : (skip rest).head? = some c) :
    ∃ seg, rest = seg ++ (skip rest).tail ∧ Clears (s ++ seg) := by
  obtain ⟨b, split, blank⟩ := exists_blanks rest
  obtain ⟨tail, cut⟩ := List.head?_eq_some_iff.mp behind
  refine ⟨b ++ [c], ?_, ?_⟩
  · rw [cut, List.tail_cons, List.append_assoc, List.singleton_append, ← cut]
    exact split
  · rw [← List.append_assoc]
    exact (leads.blanks blank).delimiter delimits

/-- Blanks, and a closing brace behind them. -/
theorem braced (leads : Leads s) (behind : (skip rest).head? = some (char '\x7d')) :
    ∃ seg, rest = seg ++ (skip rest).tail ∧ Closes (s ++ seg) := by
  obtain ⟨b, split, blank⟩ := exists_blanks rest
  obtain ⟨tail, cut⟩ := List.head?_eq_some_iff.mp behind
  refine ⟨b ++ [char '\x7d'], ?_, ?_⟩
  · rw [cut, List.tail_cons, List.append_assoc, List.singleton_append, ← cut]
    exact split
  · rw [← List.append_assoc]
    exact (leads.blanks blank).brace

/-- Blanks. -/
theorem Clears.skip (clears : Clears s) (rest : List UInt8) :
    ∃ b, rest = b ++ skip rest ∧ Clears (s ++ b) := by
  obtain ⟨b, split, blank⟩ := exists_blanks rest
  exact ⟨b, split, clears.append (clears_calm fun c member => calm_of_blank (blank c member))⟩

/-- A member of an object up to its value's end. -/
theorem member_takes (takes : Takes Leads read) {key : List Nat} {s₁ s₂ : List UInt8} {v : Value}
    (quote : s.head? = some (char '"')) (scanned : scanString .plain s.tail = some (key, s₁))
    (colon : (skip s₁).head? = some (char ':'))
    (valued : read (skip (skip s₁).tail) = some (v, s₂)) :
    ∃ seg, s = seg ++ s₂ ∧ Leads seg := by
  obtain ⟨tail, rfl⟩ := List.head?_eq_some_iff.mp quote
  obtain ⟨inner, split, leads⟩ := leads_scanned scanned
  obtain ⟨mark, split₁, cleared⟩ := delimited leads (by decide) colon
  obtain ⟨b, split₂, cleared⟩ := cleared.skip (skip s₁).tail
  obtain ⟨seg, split₃, leads⟩ := takes _ _ _ valued
  refine ⟨char '"' :: inner ++ mark ++ b ++ seg, ?_, cleared.leads_append leads⟩
  rw [List.tail_cons] at split
  simp only [List.cons_append, List.append_assoc]
  rw [← split₃, ← split₂, ← split₁, ← split]

theorem members_takes (takes : Takes Leads read) (fuel : Nat) :
    Takes Closes (members read fuel) := by
  induction fuel with
  | zero => exact fun _ _ _ none => by cases none
  | succ fuel ih =>
    intro s ms rest found
    simp only [members, Option.ite_none_right_eq_some, Option.bind_eq_bind, Option.bind_eq_some_iff]
      at found
    obtain ⟨quote, ⟨key, s₁⟩, scanned, colon, ⟨v, s₂⟩, valued, found⟩ := found
    obtain ⟨seg, split, leads⟩ := member_takes takes quote scanned colon valued
    by_cases ended : (skip s₂).head? = some (char '\x7d')
    · rw [if_pos ended] at found
      cases found
      obtain ⟨brace, behind, closes⟩ := braced leads ended
      exact ⟨seg ++ brace, by rw [List.append_assoc, ← behind, ← split], closes⟩
    · rw [if_neg ended] at found
      obtain ⟨comma, found⟩ := Option.ite_none_right_eq_some.mp found
      obtain ⟨⟨more, s₃⟩, others, same⟩ := Option.bind_eq_some_iff.mp found
      cases same
      obtain ⟨mark, behind, cleared⟩ := delimited leads (by decide) comma
      obtain ⟨b, blanks, cleared⟩ := cleared.skip (skip s₂).tail
      obtain ⟨tail, split', closes⟩ := ih _ _ _ others
      refine ⟨seg ++ mark ++ b ++ tail, ?_, cleared.closes_append closes⟩
      simp only [List.append_assoc]
      rw [← split', ← blanks, ← behind, ← split]

theorem items_takes (takes : Takes Leads read) (fuel : Nat) : Takes Clears (items read fuel) := by
  induction fuel with
  | zero => exact fun _ _ _ none => by cases none
  | succ fuel ih =>
    intro s vs rest found
    simp only [items, Option.bind_eq_bind, Option.bind_eq_some_iff] at found
    obtain ⟨⟨v, s₁⟩, valued, found⟩ := found
    obtain ⟨seg, split, leads⟩ := takes _ _ _ valued
    by_cases ended : (skip s₁).head? = some (char ']')
    · rw [if_pos ended] at found
      cases found
      obtain ⟨bracket, behind, clears⟩ := delimited leads (by decide) ended
      exact ⟨seg ++ bracket, by rw [List.append_assoc, ← behind, ← split], clears⟩
    · rw [if_neg ended] at found
      obtain ⟨comma, found⟩ := Option.ite_none_right_eq_some.mp found
      obtain ⟨⟨more, s₂⟩, others, same⟩ := Option.bind_eq_some_iff.mp found
      cases same
      obtain ⟨mark, behind, cleared⟩ := delimited leads (by decide) comma
      obtain ⟨b, blanks, cleared⟩ := cleared.skip (skip s₁).tail
      obtain ⟨tail, split', clears⟩ := ih _ _ _ others
      refine ⟨seg ++ mark ++ b ++ tail, ?_, cleared.append clears⟩
      simp only [List.append_assoc]
      rw [← split', ← blanks, ← behind, ← split]

/-- An object behind its first brace. -/
theorem object_takes {fuel : Nat} (takes : Takes Leads (value fuel)) {v : Value}
    (found : value (fuel + 1) (char '\x7b' :: s) = some (v, rest)) :
    ∃ seg, s = seg ++ rest ∧ Closes seg := by
  have nothing : Clears [] := fun _ _ => rfl
  have brace : char '\x7b' ≠ char '"' := by decide
  simp only [value, List.head?_cons, if_neg brace, if_true] at found
  split_ifs at found with empty
  · cases found
    exact braced nothing.leads empty
  · obtain ⟨⟨ms, s₁⟩, read, same⟩ := Option.map_eq_some_iff.mp found
    cases same
    obtain ⟨b, blanks, cleared⟩ := nothing.skip s
    obtain ⟨seg, split, closes⟩ := members_takes takes fuel _ _ _ read
    exact ⟨b ++ seg, blanks.trans (by rw [List.append_assoc, ← split]; rfl),
      cleared.closes_append closes⟩

/-- An array behind its first bracket. -/
theorem array_takes {fuel : Nat} (takes : Takes Leads (value fuel)) {v : Value}
    (found : value (fuel + 1) (char '[' :: s) = some (v, rest)) :
    ∃ seg, s = seg ++ rest ∧ Clears seg := by
  have nothing : Clears [] := fun _ _ => rfl
  have bracket : char '[' ≠ char '"' ∧ char '[' ≠ char '\x7b' := by decide
  simp only [value, List.head?_cons, if_neg bracket.1, if_neg bracket.2, if_true] at found
  split_ifs at found with empty
  · cases found
    exact delimited nothing.leads (by decide) empty
  · obtain ⟨⟨vs, s₁⟩, read, same⟩ := Option.map_eq_some_iff.mp found
    cases same
    obtain ⟨b, blanks, cleared⟩ := nothing.skip s
    obtain ⟨seg, split, clears⟩ := items_takes takes fuel _ _ _ read
    exact ⟨b ++ seg, blanks.trans (by rw [List.append_assoc, ← split]; rfl), cleared.append clears⟩

theorem value_takes (fuel : Nat) : Takes Leads (value fuel) := by
  have calm : ∀ {β : Type} {read : List UInt8 → Option (β × List UInt8)},
      Takes (fun seg => ∀ c ∈ seg, Calm c) read → Takes Leads read := by
    intro β read takes s v rest found
    obtain ⟨seg, split, calm⟩ := takes _ _ _ found
    exact ⟨seg, split, (clears_calm calm).leads⟩
  induction fuel with
  | zero => exact fun _ _ _ none => by cases none
  | succ fuel ih =>
    intro s v rest found
    cases first : s.head? with
    | none => simp [value, first] at found
    | some c =>
      obtain ⟨tail, rfl⟩ := List.head?_eq_some_iff.mp first
      by_cases brace : c = char '\x7b'
      · subst brace
        obtain ⟨seg, split, closes⟩ := object_takes ih found
        refine ⟨char '\x7b' :: seg, congrArg (List.cons _) split, Clears.leads fun d inside => ?_⟩
        have deeper : next (.outside, d) (char '\x7b') = (.outside, d + 1) := rfl
        rw [walk_cons, deeper, closes _ (by omega), closing, if_neg (by omega), Int.add_sub_cancel]
      by_cases bracket : c = char '['
      · subst bracket
        obtain ⟨seg, split, clears⟩ := array_takes ih found
        exact ⟨char '[' :: seg, congrArg (List.cons _) split,
          ((clears_calm (by decide +kernel : ∀ c ∈ [char '['], Calm c)).append clears).leads⟩
      simp only [value, first, if_neg brace, if_neg bracket] at found
      split_ifs at found with quote
      · subst quote
        obtain ⟨⟨units, s₁⟩, scanned, same⟩ := Option.map_eq_some_iff.mp found
        cases same
        obtain ⟨seg, split, leads⟩ := leads_scanned scanned
        exact ⟨char '"' :: seg, congrArg (List.cons _) split, leads⟩
      · exact calm (keyword_takes (by decide +kernel) _) _ _ _ found
      · exact calm (keyword_takes (by decide +kernel) _) _ _ _ found
      · exact calm (keyword_takes (by decide +kernel) _) _ _ _ found
      · exact calm (number_takes.map _) _ _ _ found

/-- A text that parses and starts with a brace ends with the object that the brace opens. -/
theorem done_of_parse {v : Value} (parsed : parse (char '\x7b' :: s) = some v) :
    walk (.outside, 0) (char '\x7b' :: s) = (.done, 0) := by
  have solid : skip (char '\x7b' :: s) = char '\x7b' :: s := skip_cons (by decide) s
  simp only [parse, Option.bind_eq_bind, Option.bind_eq_some_iff, solid] at parsed
  obtain ⟨⟨w, rest⟩, valued, ended⟩ := parsed
  obtain ⟨blank, -⟩ := Option.ite_none_right_eq_some.mp ended
  obtain ⟨seg, split, closes⟩ := object_takes (value_takes _) valued
  obtain ⟨b, rest_eq, blanks⟩ := exists_blanks rest
  rw [blank, List.append_nil] at rest_eq
  have deeper : next (.outside, 0) (char '\x7b') = (.outside, 1) := rfl
  have end_ : closing 1 = (.done, 0) := rfl
  rw [walk_cons, deeper, split, walk_append, closes 1 (le_refl 1), end_, rest_eq]
  exact walk_done blanks 0

end Values

end Kit.Json
