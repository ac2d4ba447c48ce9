import EtradePipeline.Kit.Framing
import EtradePipeline.Kit.Split
import Mathlib.Data.List.Infix

/-! A log to which groups of records are appended, with a delimiter behind each record, where the
write of a group may stop anywhere.  What a stopped write leaves of a record runs into the next
record that is written, and a write that stops spoils one line at most. -/

namespace Kit.TornLog

open Kit.Framing (cut cut_first cut_of_notMem)
open Kit.Split (filled)

variable {α : Type*} {d : α}

/-- The text of whole records. -/
def framed (d : α) (records : List (List α)) : List α := records.flatMap (· ++ [d])

/-- A part of a record from its start on. -/
def Fragment (record f : List α) : Prop := f ≠ [] ∧ f <+: record

theorem framed_append (d : α) (first second : List (List α)) :
    framed d (first ++ second) = framed d first ++ framed d second := List.flatMap_append

theorem map_framed {β : Type*} (f : α → β) (d : α) (records : List (List α)) :
    (framed d records).map f = framed (f d) (records.map (List.map f)) := by
  simp only [framed, List.map_flatMap, List.flatMap_map, List.map_append]
  rfl

/-- What is written of a group: whole records, and a fragment of the next one if any. -/
theorem exists_of_prefix {records : List (List α)} {written : List α}
    (part : written <+: framed d records) :
    ∃ whole rest torn, records = whole ++ rest ∧ written = framed d whole ++ torn ∧
      (torn = [] ∨ ∃ r ∈ rest.head?, Fragment r torn) := by
  induction records generalizing written with
  | nil =>
    obtain rfl := List.prefix_nil.mp part
    exact ⟨[], [], [], rfl, rfl, .inl rfl⟩
  | cons r records ih =>
    rw [framed, List.flatMap_cons] at part
    rcases List.prefix_or_prefix_of_prefix part (List.prefix_append _ _) with short | ⟨behind, rfl⟩
    · rcases List.prefix_concat_iff.mp short with rfl | inside
      · exact ⟨[r], records, [], rfl, by simp [framed], .inl rfl⟩
      · by_cases empty : written = []
        · exact ⟨[], r :: records, [], rfl, empty, .inl rfl⟩
        · exact ⟨[], r :: records, written, rfl, rfl, .inr ⟨r, rfl, empty, inside⟩⟩
    · obtain ⟨whole, rest, torn, rfl, rfl, next⟩ := ih ((List.prefix_append_right_inj _).mp part)
      exact ⟨r :: whole, rest, torn, rfl, by simp [framed], next⟩

theorem count_framed [DecidableEq α] {records : List (List α)} (free : ∀ r ∈ records, d ∉ r) :
    (framed d records).count d = records.length := by
  induction records with
  | nil => rfl
  | cons r records ih =>
    obtain ⟨first, others⟩ := List.forall_mem_cons.mp free
    have rest := ih others
    unfold framed at rest ⊢
    rw [List.flatMap_cons, List.count_append, List.count_append, rest, List.count_eq_zero.mpr first,
      List.count_singleton_self, List.length_cons]
    omega

/-- A reader that takes a part of a log for the records that are ended in it gets the first
records. -/
theorem cut_of_prefix [DecidableEq α] {records : List (List α)} {written : List α}
    (part : written <+: framed d records) (free : ∀ r ∈ records, d ∉ r) :
    (cut d written).1 = (records.take (written.count d)).map (· ++ [d]) := by
  obtain ⟨whole, rest, torn, rfl, rfl, next⟩ := exists_of_prefix part
  obtain ⟨ended, others⟩ := List.forall_mem_append.mp free
  have unended : d ∉ torn := by
    obtain rfl | ⟨r, first, -, inside⟩ := next
    · exact List.not_mem_nil
    · exact fun member => others r (List.mem_of_mem_head? first) (inside.subset member)
  have count : (framed d whole ++ torn).count d = whole.length := by
    rw [List.count_append, count_framed ended, List.count_eq_zero.mpr unended, Nat.add_zero]
  rw [count, List.take_left' rfl]
  clear part count free
  induction whole with
  | nil => rw [framed, List.flatMap_nil, List.nil_append, cut_of_notMem unended, List.map_nil]
  | cons r whole ih =>
    obtain ⟨own, ended⟩ := List.forall_mem_cons.mp ended
    have text : framed d (r :: whole) ++ torn = r ++ d :: (framed d whole ++ torn) := by
      simp [framed]
    rw [text, cut_first own, ih ended, List.map_cons]

/-- A part of the text of whole records that ends with one is the text of whole records. -/
theorem framed_of_ended {records : List (List α)} {written : List α}
    (part : written <+: framed d records)
    (free : ∀ r ∈ records, d ∉ r) (ended : written.getLast? = some d) :
    ∃ whole rest, records = whole ++ rest ∧ written = framed d whole := by
  obtain ⟨whole, rest, torn, split, rfl, next⟩ := exists_of_prefix part
  obtain rfl | ⟨r, first, nonempty, inside⟩ := next
  · exact ⟨whole, rest, split, List.append_nil _⟩
  · rw [List.getLast?_append_of_ne_nil _ nonempty] at ended
    have listed : r ∈ records := split ▸ List.mem_append_right _ (List.mem_of_mem_head? first)
    exact absurd (inside.subset (List.mem_of_getLast? ended)) (free r listed)

/-- A part of the text without the delimiter lies in one record. -/
theorem infix_of_framed {records : List (List α)} {piece : List α}
    (part : piece <:+: framed d records)
    (free : d ∉ piece) (some_ : piece ≠ []) : ∃ r ∈ records, piece <:+: r := by
  have apart : ∀ {l rest : List α}, l <+: d :: rest → d ∉ l → l = [] := by
    intro l rest pre none
    cases l with
    | nil => rfl
    | cons c l =>
      obtain ⟨rfl, -⟩ := List.cons_prefix_cons.mp pre
      exact absurd List.mem_cons_self none
  induction records with
  | nil => exact absurd (List.infix_nil.mp part) some_
  | cons r records ih =>
    rw [framed, List.flatMap_cons, List.append_assoc, List.singleton_append] at part
    obtain own | behind | ⟨l₁, l₂, rfl, ends, starts⟩ := List.infix_append_iff.mp part
    · exact ⟨r, List.mem_cons_self, own⟩
    · obtain pre | later := List.infix_cons_iff.mp behind
      · exact absurd (apart pre free) some_
      · obtain ⟨r', listed, inside⟩ := ih later
        exact ⟨r', List.mem_cons_of_mem _ listed, inside⟩
    · obtain rfl := apart starts fun member => free (List.mem_append_right _ member)
      exact ⟨r, List.mem_cons_self, by rw [List.append_nil]; exact ends.isInfix⟩

/-! ### The lines -/

/-- The lines of a log and what is behind the last of them, each as the fragments that it is made
of. -/
structure Log (α : Type*) where
  lines : List (List (List α))
  unended : List (List α)

/-- The record of a line that is made of one. -/
def single? : List (List α) → Option (List α)
  | [r] => some r
  | _ => none

namespace Log

def text (d : α) (log : Log α) : List α :=
  framed d (log.lines.map List.flatten) ++ log.unended.flatten

/-- All that is in a log. -/
def all (log : Log α) : List (List (List α)) :=
  log.lines ++ if log.unended = [] then [] else [log.unended]

/-- The log after a whole record. -/
def record (log : Log α) (r : List α) : Log α := ⟨log.lines ++ [log.unended ++ [r]], []⟩

/-- The log after a fragment at which a write stopped. -/
def tear (log : Log α) (f : List α) : Log α := { log with unended := log.unended ++ [f] }

/-- What every write keeps of a log of `records` with `cuts` writes that stopped. -/
structure Inv (log : Log α) (records : List (List α)) (cuts : Nat) : Prop where
  fragments : ∀ line ∈ log.all, line ≠ [] ∧ ∀ f ∈ line, ∃ r ∈ records, Fragment r f
  order : (log.lines.filterMap single?).Sublist records
  last : ∀ f, log.unended = [f] →
    ∃ r, Fragment r f ∧ (log.lines.filterMap single? ++ [r]).Sublist records
  spoiled : log.lines.length + (if log.unended = [] then 0 else 1) ≤
    (log.lines.filterMap single?).length + cuts

variable {log : Log α} {records more : List (List α)} {r f : List α} {cuts : Nat}

theorem text_record (log : Log α) (r : List α) :
    (log.record r).text d = log.text d ++ (r ++ [d]) := by
  simp [record, text, framed]

theorem text_tear (log : Log α) (f : List α) : (log.tear f).text d = log.text d ++ f := by
  simp [tear, text]

theorem inv_empty : (⟨[], []⟩ : Log α).Inv [] 0 :=
  ⟨List.forall_mem_nil _, .slnil, fun _ none => (List.cons_ne_nil _ _ none.symm).elim, le_refl 0⟩

theorem Inv.mono (inv : log.Inv records cuts) (more : List (List α)) (n : Nat) :
    log.Inv (records ++ more) (cuts + n) := by
  refine ⟨fun line member => ?_, inv.order.trans (List.sublist_append_left _ _), fun f one => ?_,
    inv.spoiled.trans (Nat.add_le_add_left (Nat.le_add_right _ _) _)⟩
  · obtain ⟨filled, all⟩ := inv.fragments line member
    refine ⟨filled, fun f hf => ?_⟩
    obtain ⟨r, hr, fragment⟩ := all f hf
    exact ⟨r, List.mem_append_left _ hr, fragment⟩
  · obtain ⟨r, fragment, order⟩ := inv.last f one
    exact ⟨r, fragment, order.trans (List.sublist_append_left _ _)⟩

theorem Inv.unended (inv : log.Inv records cuts) :
    ∀ f ∈ log.unended, ∃ r ∈ records, Fragment r f := by
  by_cases none : log.unended = []
  · rw [none]
    exact List.forall_mem_nil _
  · refine (inv.fragments log.unended ?_).2
    rw [all, if_neg none]
    exact List.mem_append_right _ (List.mem_singleton_self _)

/-- A line that a record ends is the record's own when nothing is before it. -/
theorem single_append (before : List (List α)) (r : List α) :
    single? (before ++ [r]) = if before = [] then some r else none := by
  cases before with
  | nil => rfl
  | cons f more => cases more <;> rfl

theorem Inv.record (inv : log.Inv records cuts) (nonempty : r ≠ []) :
    (log.record r).Inv (records ++ [r]) cuts := by
  have lines : (log.record r).lines.filterMap single? =
      log.lines.filterMap single? ++ if log.unended = [] then [r] else [] := by
    rw [Log.record, List.filterMap_append]
    congr 1
    rw [List.filterMap_cons, single_append]
    split_ifs <;> rfl
  have spoiled := inv.spoiled
  refine ⟨fun line member => ?_, ?_, fun f one => (List.cons_ne_nil _ _ one.symm).elim, ?_⟩
  · have all : (log.record r).all = log.lines ++ [log.unended ++ [r]] := List.append_nil _
    rw [all, List.mem_append, List.mem_singleton] at member
    rcases member with old | rfl
    · exact (inv.mono [r] 0).fragments line (List.mem_append_left _ old)
    · refine ⟨by simp, List.forall_mem_append.mpr
        ⟨(inv.mono [r] 0).unended, List.forall_mem_singleton.mpr ?_⟩⟩
      exact ⟨r, List.mem_append_right _ (List.mem_singleton_self r), nonempty, List.prefix_refl r⟩
  · rw [lines]
    refine inv.order.append ?_
    split_ifs
    · exact .refl _
    · exact List.nil_sublist _
  · have ended : (if (log.record r).unended = [] then 0 else 1) = 0 := rfl
    rw [lines, ended, Log.record, List.length_append, List.length_append, List.length_singleton]
    split_ifs at spoiled ⊢ <;> simp only [List.length_singleton, List.length_nil] <;> omega

theorem Inv.tear (inv : log.Inv records cuts) (fragment : Fragment r f) (rest : List (List α)) :
    (log.tear f).Inv (records ++ r :: rest) (cuts + 1) := by
  have member : r ∈ records ++ r :: rest := List.mem_append_right _ List.mem_cons_self
  have spoiled := inv.spoiled
  have filled : (log.tear f).unended ≠ [] := by simp [Log.tear]
  refine ⟨fun line hl => ?_, (inv.mono _ 0).order, fun f' one => ?_, ?_⟩
  · rw [all, if_neg filled, List.mem_append, List.mem_singleton] at hl
    rcases hl with old | rfl
    · exact (inv.mono _ 0).fragments line (List.mem_append_left _ old)
    · exact ⟨filled, List.forall_mem_append.mpr ⟨(inv.mono _ 0).unended,
        List.forall_mem_singleton.mpr ⟨r, member, fragment⟩⟩⟩
  · obtain ⟨-, rfl⟩ : log.unended = [] ∧ f = f' := by
      simpa [Log.tear, List.append_eq_singleton_iff] using one
    exact ⟨r, fragment, inv.order.append (List.singleton_sublist.mpr List.mem_cons_self)⟩
  · rw [if_neg filled]
    simp only [Log.tear]
    omega

/-! ### Writes -/

/-- The log after the write of whole records. -/
theorem inv_records (inv : log.Inv records cuts) {whole : List (List α)}
    (nonempty : ∀ r ∈ whole, r ≠ []) :
    ∃ log' : Log α, log'.text d = log.text d ++ framed d whole ∧
      log'.Inv (records ++ whole) cuts := by
  induction whole generalizing log records with
  | nil => exact ⟨log, by simp [framed], by rwa [List.append_nil]⟩
  | cons r whole ih =>
    obtain ⟨filled, others⟩ := List.forall_mem_cons.mp nonempty
    obtain ⟨log', text, inv'⟩ := ih (inv.record filled) others
    refine ⟨log', ?_, ?_⟩
    · rw [text, text_record]
      simp [framed]
    · rwa [List.append_assoc] at inv'

variable [DecidableEq α]

/-- The log after a write, which has stopped when it has not written everything. -/
theorem inv_write (inv : log.Inv records cuts) {group : List (List α)}
    (nonempty : ∀ r ∈ group, r ≠ []) {written : List α} (part : written <+: framed d group) :
    ∃ log' : Log α, log'.text d = log.text d ++ written ∧
      log'.Inv (records ++ group) (cuts + if written = framed d group then 0 else 1) := by
  obtain ⟨whole, rest, torn, rfl, rfl, next⟩ := exists_of_prefix part
  obtain ⟨log', text, inv'⟩ := inv_records (d := d) inv (List.forall_mem_append.mp nonempty).1
  rw [← List.append_assoc records]
  rcases next with rfl | ⟨r, head, fragment⟩
  · exact ⟨log', by rw [text, List.append_nil], inv'.mono rest _⟩
  · obtain ⟨rest, rfl⟩ := List.head?_eq_some_iff.mp head
    have stopped : framed d whole ++ torn ≠ framed d (whole ++ r :: rest) := by
      intro same
      have lengths :=
        congrArg List.length (List.append_cancel_left (same.trans (framed_append d _ _)))
      have short := fragment.2.length_le
      simp only [framed, List.flatMap_cons, List.length_append, List.length_singleton] at lengths
      omega
    refine ⟨log'.tear torn, ?_, ?_⟩
    · rw [text_tear, text, List.append_assoc]
    · rw [if_neg stopped]
      exact inv'.tear fragment rest

/-- The log after any writes. -/
theorem exists_log (writes : List (List (List α) × List α))
    (nonempty : ∀ w ∈ writes, ∀ r ∈ w.1, r ≠ []) (part : ∀ w ∈ writes, w.2 <+: framed d w.1) :
    ∃ log : Log α, log.text d = writes.flatMap Prod.snd ∧
      log.Inv (writes.flatMap Prod.fst) (writes.countP fun w => w.2 ≠ framed d w.1) := by
  induction writes using List.reverseRecOn with
  | nil => exact ⟨_, rfl, inv_empty⟩
  | append_singleton writes w ih =>
    obtain ⟨nonempty, filled⟩ := List.forall_mem_append.mp nonempty
    obtain ⟨part, last⟩ := List.forall_mem_append.mp part
    obtain ⟨log, text, inv⟩ := ih nonempty part
    obtain ⟨log', text', inv'⟩ :=
      inv_write inv (filled w (List.mem_singleton_self w)) (last w (List.mem_singleton_self w))
    refine ⟨log', ?_, ?_⟩
    · rw [text', text, List.flatMap_append, List.flatMap_singleton]
    · rw [List.flatMap_append, List.flatMap_singleton, List.countP_append, List.countP_singleton]
      convert inv' using 2
      by_cases whole : w.2 = framed d w.1 <;> simp [whole]

/-! ### Reading -/

omit [DecidableEq α] in
theorem framed_append_eq (d : α) (records : List (List α)) (last : List α) :
    framed d records ++ last = [d].intercalate (records ++ [last]) := by
  induction records with
  | nil => simp [framed]
  | cons r records ih =>
    obtain ⟨next, more, others⟩ :=
      List.exists_cons_of_ne_nil
        (List.append_ne_nil_of_right_ne_nil records (List.cons_ne_nil last []))
    have first : framed d (r :: records) = r ++ [d] ++ framed d records := List.flatMap_cons
    rw [first, List.append_assoc, ih, List.cons_append, others, List.intercalate_cons_cons]

/-- What is between the delimiters of a part of a log is the start of a record. -/
theorem splitOn_of_prefix {written : List α} (part : written <+: framed d records)
    (free : ∀ r ∈ records, d ∉ r) :
    ∀ f ∈ written.splitOn d, f = [] ∨ ∃ r ∈ records, f <+: r := by
  obtain ⟨whole, rest, torn, rfl, rfl, next⟩ := exists_of_prefix part
  obtain ⟨ended, others⟩ := List.forall_mem_append.mp free
  have last : torn = [] ∨ ∃ r ∈ whole ++ rest, torn <+: r := by
    obtain rfl | ⟨r, first, -, inside⟩ := next
    · exact .inl rfl
    · exact .inr ⟨r, List.mem_append_right _ (List.mem_of_mem_head? first), inside⟩
  have unended : d ∉ torn := by
    obtain rfl | ⟨r, member, inside⟩ := last
    · exact List.not_mem_nil
    · exact fun bad => free r member (inside.subset bad)
  have pieces : ∀ f ∈ whole ++ [torn], d ∉ f :=
    List.forall_mem_append.mpr ⟨ended, List.forall_mem_singleton.mpr unended⟩
  rw [framed_append_eq, List.splitOn_intercalate d pieces (by simp)]
  exact List.forall_mem_append.mpr ⟨fun f member =>
    .inr ⟨f, List.mem_append_left _ member, List.prefix_refl f⟩,
    List.forall_mem_singleton.mpr last⟩

/-- The records are what is between the delimiters. -/
theorem filled_framed (free : ∀ r ∈ records, d ∉ r) (some_ : ∀ r ∈ records, r ≠ []) :
    filled d (framed d records) = records := by
  have text : framed d records = [d].intercalate (records ++ [[]]) := by
    rw [← framed_append_eq, List.append_nil]
  have free : ∀ f ∈ records ++ [[]], d ∉ f :=
    List.forall_mem_append.mpr ⟨free, List.forall_mem_singleton.mpr List.not_mem_nil⟩
  rw [filled, text, List.splitOn_intercalate d free (by simp), List.filter_append,
    List.filter_eq_self.mpr fun r member => decide_eq_true (some_ r member)]
  simp

omit [DecidableEq α] in
theorem line_free (free : ∀ r ∈ records, d ∉ r) {line : List (List α)}
    (fragments : ∀ f ∈ line, ∃ r ∈ records, Fragment r f) : d ∉ line.flatten := by
  intro member
  obtain ⟨f, hf, inside⟩ := List.mem_flatten.mp member
  obtain ⟨r, hr, -, part⟩ := fragments f hf
  exact free r hr (part.subset inside)

/-- What is read between the delimiters. -/
theorem Inv.filled_text (inv : log.Inv records cuts) (free : ∀ r ∈ records, d ∉ r) :
    filled d (log.text d) = log.all.map List.flatten ∧ (log.text d).count d ≤ log.all.length := by
  have lines : ∀ f ∈ log.lines.map List.flatten ++ [log.unended.flatten], d ∉ f := by
    refine List.forall_mem_append.mpr ⟨fun f member => ?_,
      List.forall_mem_singleton.mpr (line_free free inv.unended)⟩
    obtain ⟨line, hl, rfl⟩ := List.mem_map.mp member
    exact line_free free (inv.fragments line (List.mem_append_left _ hl)).2
  have text : log.text d = [d].intercalate (log.lines.map List.flatten ++ [log.unended.flatten]) :=
    framed_append_eq d _ _
  have some_ : ∀ line ∈ log.all, line.flatten ≠ [] := by
    intro line member empty
    obtain ⟨f, more, rfl⟩ := List.exists_cons_of_ne_nil (inv.fragments line member).1
    obtain ⟨-, -, filled, -⟩ := (inv.fragments _ member).2 f List.mem_cons_self
    exact filled (List.append_eq_nil_iff.mp empty).1
  constructor
  · have ended : ∀ f ∈ log.lines.map List.flatten, decide (f ≠ []) = true := by
      intro f member
      obtain ⟨line, hl, rfl⟩ := List.mem_map.mp member
      exact decide_eq_true (some_ line (List.mem_append_left _ hl))
    rw [filled, text, List.splitOn_intercalate d lines (by simp), List.filter_append,
      List.filter_eq_self.mpr ended, all, List.map_append]
    congr 1
    by_cases none : log.unended = []
    · simp [none]
    · have last := some_ log.unended (by simp [all, none])
      simp [none, last]
  · have count := Getline.count_intercalate lines (by simp)
    rw [← text] at count
    simp only [List.length_append, List.length_map, List.length_singleton, all] at count ⊢
    omega

end Log

section Reader

variable {β : Type*} {read : List α → Option β} {value : List α → β} {records : List (List α)}

/-- The reader reads each record. -/
def ReadsWhole (read : List α → Option β) (value : List α → β) (records : List (List α)) : Prop :=
  ∀ r ∈ records, read r = some (value r)

/-- The reader reads no fragment that is not whole, and no fragments that have run together. -/
structure RefusesTorn (read : List α → Option β) (records : List (List α)) : Prop where
  single : ∀ r ∈ records, ∀ f, Fragment r f → f ≠ r → read f = none
  joined : ∀ line : List (List α), 2 ≤ line.length → (∀ f ∈ line, ∃ r ∈ records, Fragment r f) →
    read line.flatten = none

/-- What is left of a fragment without the end that is trimmed off. -/
theorem Fragment.trim {r f : List α} (fragment : Fragment r f) {p : α → Bool}
    (solid : ∃ c ∈ r.head?, p c = false) : Fragment r (f.rdropWhile p) := by
  obtain ⟨filled, part⟩ := fragment
  refine ⟨fun trimmed => ?_, (List.rdropWhile_prefix p f).trans part⟩
  obtain ⟨c, head, kept⟩ := solid
  obtain ⟨c', more, rfl⟩ := List.exists_cons_of_ne_nil filled
  obtain ⟨behind, rfl⟩ := part
  obtain rfl : c' = c := by simpa using head
  have all := List.rdropWhile_eq_nil_iff.mp trimmed c' List.mem_cons_self
  rw [kept] at all
  cases all

theorem rdropWhile_append {p : α → Bool} (a : List α) {b : List α} (kept : b.rdropWhile p ≠ []) :
    (a ++ b).rdropWhile p = a ++ b.rdropWhile p := by
  simp only [List.rdropWhile, ne_eq, List.reverse_eq_nil_iff] at kept ⊢
  rw [List.reverse_append, List.dropWhile_append, if_neg (by simpa using kept), List.reverse_append,
    List.reverse_reverse]

/-- A reader that trims the end of its line first. -/
theorem RefusesTorn.trimmed {read' : List α → Option β} (refuses : RefusesTorn read' records)
    (p : α → Bool) (solid : ∀ r ∈ records, ∃ c ∈ r.head?, p c = false)
    (same : ∀ line : List (List α), line ≠ [] → (∀ f ∈ line, ∃ r ∈ records, Fragment r f) →
      read line.flatten = read' (line.flatten.rdropWhile p)) : RefusesTorn read records := by
  refine ⟨fun r member f fragment torn => ?_, fun line several fragments => ?_⟩
  · have one :=
      same [f] (List.cons_ne_nil _ _) (List.forall_mem_singleton.mpr ⟨r, member, fragment⟩)
    rw [List.flatten_singleton] at one
    rw [one]
    refine refuses.single r member _ (fragment.trim (solid r member)) fun whole => torn ?_
    have longer : r <+: f := whole ▸ List.rdropWhile_prefix p f
    exact fragment.2.eq_of_length_le longer.length_le
  · have filled : line ≠ [] := List.ne_nil_of_length_pos (by omega)
    rw [same line filled fragments]
    obtain ⟨first, f, rfl⟩ : ∃ first f, line = first ++ [f] :=
      ⟨_, _, (List.dropLast_append_getLast filled).symm⟩
    obtain ⟨before, last⟩ := List.forall_mem_append.mp fragments
    obtain ⟨r, member, fragment⟩ := last f (List.mem_singleton_self f)
    have trimmed := fragment.trim (solid r member)
    have text : (first ++ [f]).flatten.rdropWhile p = (first ++ [f.rdropWhile p]).flatten := by
      rw [List.flatten_append, List.flatten_append, List.flatten_singleton, List.flatten_singleton,
        rdropWhile_append _ trimmed.1]
    rw [text]
    refine refuses.joined _ ?_ (List.forall_mem_append.mpr
      ⟨before, List.forall_mem_singleton.mpr ⟨r, member, trimmed⟩⟩)
    simpa using several

variable {log : Log α} {cuts : Nat}

theorem Log.Inv.read_lines (inv : log.Inv records cuts) (whole : ReadsWhole read value records)
    (torn : RefusesTorn read records) :
    (log.lines.map List.flatten).filterMap read = (log.lines.filterMap single?).map value := by
  rw [List.filterMap_map, List.map_filterMap]
  refine List.filterMap_congr fun line member => ?_
  obtain ⟨filled, fragments⟩ := inv.fragments line (List.mem_append_left _ member)
  obtain ⟨f, more, rfl⟩ := List.exists_cons_of_ne_nil filled
  cases more with
  | nil =>
    have own : f ∈ log.lines.filterMap single? := List.mem_filterMap.mpr ⟨[f], member, rfl⟩
    rw [Function.comp_apply, List.flatten_singleton, whole f (inv.order.subset own)]
    rfl
  | cons g more => exact torn.joined (f :: g :: more) (by simp) fragments

/-- A reader reads of a log some of its records, in their order. -/
theorem Log.Inv.read_all (inv : log.Inv records cuts) (whole : ReadsWhole read value records)
    (torn : RefusesTorn read records) :
    ∃ served : List (List α), (log.all.map List.flatten).filterMap read = served.map value ∧
      served.Sublist records ∧ log.all.length ≤ served.length + cuts := by
  have spoiled := inv.spoiled
  rw [all, List.map_append, List.filterMap_append, inv.read_lines whole torn]
  by_cases none : log.unended = []
  · refine ⟨log.lines.filterMap single?, ?_, inv.order, ?_⟩
    · simp [none]
    · simpa [none] using spoiled
  · rw [if_neg none] at spoiled ⊢
    obtain ⟨f, more, unended⟩ := List.exists_cons_of_ne_nil none
    have unread : read log.unended.flatten = Option.none →
        ∃ served : List (List α), (log.lines.filterMap single?).map value ++
            ([log.unended].map List.flatten).filterMap read =
          served.map value ∧ served.Sublist records ∧
          (log.lines ++ [log.unended]).length ≤ served.length + cuts := by
      intro refused
      exact ⟨log.lines.filterMap single?, by simp [refused], inv.order, by simpa using spoiled⟩
    cases more with
    | cons g more =>
      exact unread (torn.joined log.unended (by simp [unended]) inv.unended)
    | nil =>
      obtain ⟨r, fragment, order⟩ := inv.last f unended
      have member : r ∈ records :=
        order.subset (List.mem_append_right _ (List.mem_singleton_self r))
      by_cases same : f = r
      · subst same
        refine ⟨log.lines.filterMap single? ++ [f], ?_, order, ?_⟩
        · simp [unended, whole f member]
        · simp only [List.length_append, List.length_singleton]
          omega
      · refine unread ?_
        rw [unended, List.flatten_singleton]
        exact torn.single r member f fragment same

variable [DecidableEq α]

/-- A reader that reads the records but nothing that is torn reads of a log some of its records, in
their order, and misses no more lines than writes have stopped.  Each line is made of fragments. -/
theorem read_log (writes : List (List (List α) × List α))
    (part : ∀ w ∈ writes, w.2 <+: framed d w.1)
    (nonempty : ∀ r ∈ writes.flatMap Prod.fst, r ≠ []) (free : ∀ r ∈ writes.flatMap Prod.fst, d ∉ r)
    (whole : ReadsWhole read value (writes.flatMap Prod.fst))
    (torn : RefusesTorn read (writes.flatMap Prod.fst)) :
    ∃ served : List (List α),
      (filled d (writes.flatMap Prod.snd)).filterMap read = served.map value ∧
      served.Sublist (writes.flatMap Prod.fst) ∧
      (writes.flatMap Prod.snd).count d ≤ (filled d (writes.flatMap Prod.snd)).length ∧
      (filled d (writes.flatMap Prod.snd)).length ≤
        served.length + (writes.countP fun w => w.2 ≠ framed d w.1) ∧
      ∀ s ∈ filled d (writes.flatMap Prod.snd),
        ∃ line : List (List α), s = line.flatten ∧ line ≠ [] ∧
          ∀ f ∈ line, ∃ r ∈ writes.flatMap Prod.fst, Fragment r f := by
  have each : ∀ w ∈ writes, ∀ r ∈ w.1, r ≠ [] :=
    fun w hw r hr => nonempty r (List.mem_flatMap.mpr ⟨w, hw, hr⟩)
  obtain ⟨log, text, inv⟩ := Log.exists_log writes each part
  obtain ⟨lines, count⟩ := inv.filled_text free
  obtain ⟨served, read, order, missed⟩ := inv.read_all whole torn
  rw [← text, lines]
  refine ⟨served, read, order, by rwa [List.length_map], by rwa [List.length_map],
    fun s member => ?_⟩
  obtain ⟨line, hl, rfl⟩ := List.mem_map.mp member
  exact ⟨line, rfl, inv.fragments line hl⟩

end Reader

end Kit.TornLog
