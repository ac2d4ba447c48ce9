import EtradePipeline.Kit.Search
import Mathlib.Data.Nat.Notation

/-! Texts of tokens with gaps around them, some of the tokens between quotes.  A quoted word with a
mark right behind it is in no such text unless a quoted token is the word and the token behind it
starts with the mark. -/

namespace Kit.Tokens

open Kit.Search (behind behind_cons behind_append_of_notMem quoted quoted_prefix_iff)

variable {α : Type}

inductive Token (α : Type) where
  | str (s : List α)
  | lit (t : List α)

def Token.text (q : α) : Token α → List α
  | .str s => quoted q s
  | .lit t => t

def Token.content : Token α → List α
  | .str s => s
  | .lit t => t

/-- The text of the tokens, with a gap before each and one behind the last. -/
def spaced (q : α) (gaps : ℕ → List α) : List (Token α) → List α
  | [] => gaps 0
  | t :: ts => gaps 0 ++ (t.text q ++ spaced q (fun i => gaps (i + 1)) ts)

/-! ### Keys -/

/-- A word, the quote around it and the mark behind it.  Gaps have neither of them. -/
structure Key (α : Type) where
  q : α
  first : α
  letters : List α
  mark : α
  blank : α → Prop
  free : q ∉ first :: letters
  quote_solid : ¬ blank q
  first_solid : ¬ blank first
  mark_solid : ¬ blank mark

def Key.text (k : Key α) : List α := quoted k.q (k.first :: k.letters) ++ [k.mark]

theorem head_of_gap {blank : α → Prop} {c d : α} {gap : List α} (blanks : ∀ x ∈ gap, blank x)
    (solid : ¬ blank d) (ne : c ≠ d) (text : List α) : (gap ++ c :: text).head? ≠ some d := by
  cases gap with
  | nil => exact fun same => ne (Option.some.inj same)
  | cons b bs =>
    rintro ⟨⟩
    exact solid (blanks _ List.mem_cons_self)

variable [DecidableEq α] (k : Key α)

/-- The key is in no text of the tokens. -/
def Absent (ts : List (Token α)) : Prop :=
  ∀ gaps : ℕ → List α, (∀ i, ∀ c ∈ gaps i, k.blank c) → behind k.text (spaced k.q gaps ts) = none

/-- The key is absent, and the first token is a bare one that can follow a word. -/
structure Follows (ts : List (Token α)) : Prop where
  absent : Absent k ts
  starts : ∃ c t more, ts = .lit (c :: t) :: more ∧ c ≠ k.first ∧ c ≠ k.mark

/-- The tokens keep the key absent. -/
def Skipped (ts : List (Token α)) : Prop := ∀ more, Follows k more → Absent k (ts ++ more)

variable {k}

theorem absent_nil : Absent k [] := by
  intro gaps blanks
  have free : k.q ∉ gaps 0 := fun member => k.quote_solid (blanks 0 _ member)
  have skipped := behind_append_of_notMem free (k.first :: k.letters ++ [k.q] ++ [k.mark]) []
  rw [List.append_nil] at skipped
  exact skipped

theorem absent_lit {t : List α} {ts : List (Token α)} (free : k.q ∉ t) (absent : Absent k ts) :
    Absent k (.lit t :: ts) := by
  intro gaps blanks
  have gap : k.q ∉ gaps 0 := fun member => k.quote_solid (blanks 0 _ member)
  rw [spaced, Key.text, quoted, List.cons_append, behind_append_of_notMem gap, Token.text,
    behind_append_of_notMem free]
  exact absent _ fun i => blanks (i + 1)

theorem absent_str {s t : List α} {c : α} {ts : List (Token α)} (free : k.q ∉ s)
    (other : c ≠ k.first)
    (unmarked : s = k.first :: k.letters → c ≠ k.mark) (absent : Absent k (.lit (c :: t) :: ts)) :
    Absent k (.str s :: .lit (c :: t) :: ts) := by
  intro gaps blanks
  have gap : k.q ∉ gaps 0 := fun member => k.quote_solid (blanks 0 _ member)
  have later := absent _ fun i => blanks (i + 1)
  rw [spaced]
  generalize rest : spaced k.q (fun i => gaps (i + 1)) (.lit (c :: t) :: ts) = text at later ⊢
  have head : ∀ d, ¬ k.blank d → c ≠ d → text.head? ≠ some d := by
    intro d solid ne
    rw [← rest, spaced, Token.text, List.cons_append]
    exact head_of_gap (blanks 1) solid ne _
  -- Neither the quote before the word nor the one behind it starts the key.
  have opening : ¬ k.text <+: k.q :: (s ++ k.q :: text) := by
    intro initial
    have word : s = k.first :: k.letters :=
      (quoted_prefix_iff k.free free text).mp ((List.prefix_append _ _).trans initial)
    obtain ⟨tail, same⟩ := initial
    refine head k.mark k.mark_solid (unmarked word) ?_
    have split : k.mark :: tail = text := by simpa [Key.text, quoted, word] using same
    rw [← split, List.head?_cons]
  have closing : ¬ k.text <+: k.q :: text := by
    rintro ⟨tail, same⟩
    have split := (List.cons.inj same).2
    exact head k.first k.first_solid other (by rw [← split]; rfl)
  have text : Token.text k.q (.str s) ++ text = k.q :: (s ++ k.q :: text) := by
    simp [Token.text, quoted]
  rw [text, Key.text, quoted, List.cons_append, behind_append_of_notMem gap,
    ← List.cons_append, ← quoted,
    ← Key.text, behind_cons opening, Key.text, quoted, List.cons_append,
      behind_append_of_notMem free,
    ← List.cons_append, ← quoted, ← Key.text, behind_cons closing]
  exact later

theorem skipped_intercalate {c : α} (groups : List (List (Token α))) (first : c ≠ k.first)
    (mark : c ≠ k.mark) (solid : k.q ≠ c) (each : ∀ g ∈ groups, Skipped k g) :
    Skipped k ([.lit [c]].intercalate groups) := by
  induction groups with
  | nil => exact fun more follows => follows.absent
  | cons g groups ih =>
    obtain ⟨skipped, others⟩ := List.forall_mem_cons.mp each
    cases groups with
    | nil =>
      rw [List.intercalate_singleton]
      exact skipped
    | cons next groups =>
      intro more follows
      rw [List.intercalate_cons_cons, List.append_assoc, List.append_assoc]
      have later := absent_lit (t := [c]) (by simpa using solid) (ih others more follows)
      exact skipped _ ⟨later, c, [], _, rfl, first, mark⟩

end Kit.Tokens
