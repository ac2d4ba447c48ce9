import Mathlib.Algebra.BigOperators.Group.List.Basic
import Mathlib.Data.List.AList

/-! Keyed lists.  For a list with one entry a key: how many entries have a value that meets a test,
and how that number changes with an insertion.  For a log with any number of entries a key: the
total of the amounts under a key. -/

namespace Kit.KeyedList

variable {κ β : Type*} [DecidableEq κ]

/-- The number of entries whose value meets `p`. -/
def countIf (p : β → Bool) (s : AList fun _ : κ => β) : Nat := s.entries.countP fun e => p e.2

omit [DecidableEq κ] in
@[simp] theorem countIf_empty (p : β → Bool) : countIf p (∅ : AList fun _ : κ => β) = 0 := rfl

theorem countIf_insert (p : β → Bool) (s : AList fun _ : κ => β) (k : κ) (v : β) :
    countIf p (s.insert k v) + ((s.lookup k).any p).toNat = countIf p s + (p v).toNat := by
  obtain ⟨es, distinct⟩ := s
  by_cases present : k ∈ es.keys
  · obtain ⟨old, before, after, fresh, rfl, erased⟩ := List.exists_of_kerase present
    have found : (⟨before ++ ⟨k, old⟩ :: after, distinct⟩ : AList fun _ : κ => β).lookup k =
        some old :=
      (AList.mem_lookup_iff).mpr (by simp)
    simp only [countIf, AList.insert, List.kinsert_def, found, erased, List.countP_cons,
      List.countP_append, Option.any_some]
    cases p v <;> cases p old <;> simp <;> omega
  · have missing : (⟨es, distinct⟩ : AList fun _ : κ => β).lookup k = none :=
      AList.lookup_eq_none.mpr present
    simp only [countIf, AList.insert, List.kinsert_def, missing,
      List.kerase_of_notMem_keys present, List.countP_cons, Option.any_none]
    cases p v <;> simp

theorem countIf_congr {p q : β → Bool} {s : AList fun _ : κ => β}
    (same : ∀ k v, s.lookup k = some v → p v = q v) : countIf p s = countIf q s :=
  List.countP_congr fun e he => by rw [same e.1 e.2 (AList.mem_lookup_iff.mpr he)]

/-- The total of the amounts that a log has under a key. -/
def total {M : Type*} [AddMonoid M] (log : List (κ × M)) (k : κ) : M :=
  ((log.filter fun e => e.1 = k).map Prod.snd).sum

section Log

variable {M : Type*} [AddMonoid M] {log : List (κ × M)} {k : κ}

@[simp] theorem total_nil (k : κ) : total ([] : List (κ × M)) k = 0 := rfl

theorem total_cons (e : κ × M) :
    total (e :: log) k = (if e.1 = k then e.2 else 0) + total log k := by
  simp only [total, List.filter_cons]
  split_ifs <;> simp_all

theorem total_eq_zero (absent : ∀ e ∈ log, e.1 ≠ k) : total log k = 0 := by
  have none : log.filter (fun e => e.1 = k) = [] := by simpa using absent
  rw [total, none]
  rfl

end Log

end Kit.KeyedList
