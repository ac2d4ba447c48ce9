import EtradePipeline.Kit.Search
import EtradePipeline.Kit.TornLog

/-! A reader of comma separated values, the state machine of Python's `csv.reader` for its default
dialect.  The rows of plain fields that are written with a comma between the fields and a newline
behind each row are read as they are. -/

namespace Kit.Csv

open Kit.Framing (cut cut_first)
open Kit.TornLog (framed)

/-! ### The reader -/

inductive Mode where
  | startRecord
  | startField
  | inField
  | inQuotedField
  | quoteInQuotedField
  | eatCrnl
  deriving DecidableEq

/-- The reader in a record: its state, and the field and the fields that it has. -/
structure Reader where
  mode : Mode
  field : List Nat
  fields : List (List Nat)

/-- The greatest length of a field, `csv.field_size_limit()`. -/
def fieldLimit : Nat := 131072

def comma : Nat := 44
def quote : Nat := 34
def newline : Nat := 10
def carriageReturn : Nat := 13

namespace Reader

def start : Reader := ⟨.startRecord, [], []⟩

def save (r : Reader) (mode : Mode) : Reader := ⟨mode, [], r.fields ++ [r.field]⟩

/-- A field that gets too long is an error. -/
def add (r : Reader) (c : Nat) (mode : Mode) : Option Reader :=
  if r.field.length < fieldLimit then some { r with mode, field := r.field ++ [c] } else none

/-- A character that is not quoted, in a field or behind a quoted part of it. -/
def unquoted (r : Reader) (c : Nat) : Option Reader :=
  if c = newline ∨ c = carriageReturn then some (r.save .eatCrnl)
  else if c = comma then some (r.save .startField)
  else r.add c .inField

/-- The first character of a field. -/
def atStart (r : Reader) (c : Nat) : Option Reader :=
  if c = quote then some { r with mode := .inQuotedField } else r.unquoted c

/-- The reader after a character, or `none` on an error. -/
def step (r : Reader) (c : Nat) : Option Reader :=
  match r.mode with
  | .startRecord =>
    if c = newline ∨ c = carriageReturn then some { r with mode := .eatCrnl } else r.atStart c
  | .startField => r.atStart c
  | .inField => r.unquoted c
  | .inQuotedField =>
    if c = quote then some { r with mode := .quoteInQuotedField } else r.add c .inQuotedField
  | .quoteInQuotedField => if c = quote then r.add c .inQuotedField else r.unquoted c
  | .eatCrnl => if c = newline ∨ c = carriageReturn then some r else none

/-- The reader at the end of a line. -/
def endLine (r : Reader) : Reader :=
  match r.mode with
  | .startRecord | .inQuotedField => r
  | .startField | .inField | .quoteInQuotedField => r.save .startRecord
  | .eatCrnl => { r with mode := .startRecord }

def feed (r : Reader) (line : List Nat) : Option Reader := (line.foldlM step r).map endLine

end Reader

/-- The rows of lines, or `none` on an error.  A quoted field may go on in the next line. -/
def rowsFrom (r : Reader) : List (List Nat) → Option (List (List (List Nat)))
  | [] =>
    if r.field ≠ [] ∨ r.mode = .inQuotedField then some [r.fields ++ [r.field]] else some []
  | line :: lines =>
    match r.feed line with
    | none => none
    | some r =>
      if r.mode = .startRecord then (rowsFrom .start lines).map (r.fields :: ·)
      else rowsFrom r lines

/-- The rows of lines. -/
def rows (lines : List (List Nat)) : Option (List (List (List Nat))) := rowsFrom .start lines

/-- The lines of a text, each with its newline. -/
def textLines (s : List Nat) : List (List Nat) :=
  (cut newline s).1 ++ if (cut newline s).2 = [] then [] else [(cut newline s).2]

/-! ### Plain fields -/

/-- A field that needs no quotes. -/
structure Plain (field : List Nat) : Prop where
  marks : ∀ c ∈ field, c ≠ comma ∧ c ≠ quote ∧ c ≠ newline ∧ c ≠ carriageReturn
  short : field.length ≤ fieldLimit

/-- A row as it is written, without its newline. -/
def rowText (row : List (List Nat)) : List Nat := [comma].intercalate row

namespace Reader

/-- The reader in a field that is not quoted. -/
def within (fields : List (List Nat)) (field : List Nat) : Reader :=
  ⟨if field = [] then .startField else .inField, field, fields⟩

variable {fields : List (List Nat)} {field : List Nat} {c : Nat}

theorem step_within (other : c ≠ quote) :
    (within fields field).step c = (within fields field).unquoted c := by
  unfold within step
  by_cases empty : field = []
  · simp only [if_pos empty, atStart, if_neg other]
  · simp only [if_neg empty]

theorem step_own (fits : field.length < fieldLimit)
    (marks : c ≠ comma ∧ c ≠ quote ∧ c ≠ newline ∧ c ≠ carriageReturn) :
    (within fields field).step c = some (within fields (field ++ [c])) := by
  obtain ⟨sep, other, line, return_⟩ := marks
  have grown : field ++ [c] ≠ [] := by simp
  rw [step_within other, unquoted, if_neg (by simp [line, return_]), if_neg sep]
  simp only [add, within, fits, if_true, if_neg grown]

theorem step_comma : (within fields field).step comma = some (within (fields ++ [field]) []) := by
  rw [step_within (by decide)]
  rfl

theorem step_newline :
    (within fields field).step newline = some ⟨.eatCrnl, [], fields ++ [field]⟩ := by
  rw [step_within (by decide)]
  rfl

theorem foldlM_own {more : List Nat} (plain : Plain (field ++ more)) (rest : List Nat) :
    (more ++ rest).foldlM step (within fields field) =
      rest.foldlM step (within fields (field ++ more)) := by
  induction more generalizing field with
  | nil => rw [List.append_nil, List.nil_append]
  | cons c more ih =>
    have fits : field.length < fieldLimit := by
      have short := plain.short
      rw [List.length_append, List.length_cons] at short
      omega
    have own := plain.marks c (by simp)
    rw [List.append_cons] at plain
    rw [List.cons_append, List.foldlM_cons, step_own fits own, Option.bind_eq_bind,
      Option.bind_some, ih plain, ← List.append_cons]

theorem foldlM_row {row : List (List Nat)} (nonempty : row ≠ []) (plain : ∀ f ∈ row, Plain f) :
    (rowText row ++ [newline]).foldlM step (within fields []) =
      some ⟨.eatCrnl, [], fields ++ row⟩ := by
  induction row generalizing fields with
  | nil => exact absurd rfl nonempty
  | cons f row ih =>
    obtain ⟨own, others⟩ := List.forall_mem_cons.mp plain
    have whole : Plain ([] ++ f) := own
    cases row with
    | nil =>
      rw [rowText, List.intercalate_singleton, foldlM_own whole, List.nil_append, List.foldlM_cons,
        step_newline]
      rfl
    | cons g row =>
      have text : rowText (f :: g :: row) ++ [newline] =
          f ++ comma :: (rowText (g :: row) ++ [newline]) := by
        simp [rowText, List.intercalate_cons_cons]
      rw [text, foldlM_own whole, List.nil_append, List.foldlM_cons, step_comma,
        Option.bind_eq_bind, Option.bind_some, ih (List.cons_ne_nil _ _) others, List.append_assoc]
      rfl

/-- The first character of a row is one of its first field, or a comma. -/
theorem foldlM_start {s : List Nat} (nonempty : s ≠ [])
    (inner : ∀ c ∈ s.head?, c ≠ newline ∧ c ≠ carriageReturn) :
    s.foldlM step start = s.foldlM step (within [] []) := by
  cases s with
  | nil => exact absurd rfl nonempty
  | cons c s =>
    obtain ⟨line, return_⟩ := inner c rfl
    have same : start.step c = (within [] []).step c := by
      simp only [start, within, step, if_neg (not_or.mpr ⟨line, return_⟩)]
      rfl
    rw [List.foldlM_cons, List.foldlM_cons, same]

end Reader

/-! ### Rows -/

/-- A row that is read as it is: one that is not a single empty field. -/
structure PlainRow (row : List (List Nat)) : Prop where
  plain : ∀ f ∈ row, Plain f
  visible : rowText row ≠ []

theorem feed_row {row : List (List Nat)} (plain : PlainRow row) :
    Reader.start.feed (rowText row ++ [newline]) = some ⟨.startRecord, [], row⟩ := by
  have nonempty : row ≠ [] := by
    rintro rfl
    exact plain.visible rfl
  have inside : ∀ c ∈ rowText row, c ≠ newline ∧ c ≠ carriageReturn := by
    intro c member
    constructor
    · rintro rfl
      exact Kit.Search.notMem_intercalate (by decide)
        (fun f listed inside => ((plain.plain f listed).marks _ inside).2.2.1 rfl) member
    · rintro rfl
      exact Kit.Search.notMem_intercalate (by decide)
        (fun f listed inside => ((plain.plain f listed).marks _ inside).2.2.2 rfl) member
  have first : ∀ c ∈ (rowText row ++ [newline]).head?, c ≠ newline ∧ c ≠ carriageReturn := by
    intro c head
    rw [List.head?_append_of_ne_nil _ plain.visible] at head
    exact inside c (List.mem_of_mem_head? head)
  rw [Reader.feed, Reader.foldlM_start (by simp) first, Reader.foldlM_row nonempty plain.plain]
  rfl

theorem newline_notMem_rowText {row : List (List Nat)} (plain : PlainRow row) :
    newline ∉ rowText row := by
  apply Kit.Search.notMem_intercalate (by decide)
  intro f own inside
  exact ((plain.plain f own).marks _ inside).2.2.1 rfl

theorem textLines_framed {texts : List (List Nat)} (free : ∀ text ∈ texts, newline ∉ text) :
    textLines (framed newline texts) = texts.map (· ++ [newline]) := by
  induction texts with
  | nil => rfl
  | cons text texts ih =>
    obtain ⟨own, others⟩ := List.forall_mem_cons.mp free
    have first : framed newline (text :: texts) = text ++ newline :: framed newline texts := by
      simp [framed]
    rw [first, textLines, cut_first own, List.cons_append, List.map_cons, ← ih others]
    rfl

/-- Plain rows that are written are read as they are. -/
theorem rows_written {table : List (List (List Nat))} (plain : ∀ row ∈ table, PlainRow row) :
    rows (textLines (framed newline (table.map rowText))) = some table := by
  have free : ∀ text ∈ table.map rowText, newline ∉ text := by
    intro text listed
    obtain ⟨row, own, rfl⟩ := List.mem_map.mp listed
    exact newline_notMem_rowText (plain row own)
  rw [textLines_framed free, rows]
  clear free
  induction table with
  | nil => rfl
  | cons row table ih =>
    obtain ⟨own, others⟩ := List.forall_mem_cons.mp plain
    simp only [List.map_cons, rowsFrom, feed_row own, if_true, ih others, Option.map_some]

end Kit.Csv
