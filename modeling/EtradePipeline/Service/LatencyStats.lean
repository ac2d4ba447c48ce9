import EtradePipeline.Service.Percentile
import Mathlib.Data.Rat.Sqrt

/-! The statistics report of the events API.  Its percentiles are values of one interpolation of the
sorted latencies, which ascends, so that they come in the order of their ranks. -/

namespace EtradePipeline

open Kit.Interpolation (interpolate interpolate_natCast interpolate_mono interpolate_mem_Icc)

/-! ### The report -/

section Code

variable {α : Type}

/-- What the report takes of Python's library, with what is documented of it: `sorted` puts the
items into ascending order where their order is a total one, and `statistics.mean` raises an
exception for no data only. -/
structure Statistics (α : Type) [LE α] where
  sorted : List α → List α
  mean : List α → Except PyError α
  pstdev : List α → Except PyError α
  sorted_perm : ∀ l, (sorted l).Perm l
  sorted_ascending : ∀ l, (∀ a ∈ l, ∀ b ∈ l, a ≤ b ∨ b ≤ a) →
    (∀ a ∈ l, ∀ b ∈ l, ∀ c ∈ l, a ≤ b → b ≤ c → a ≤ c) → (sorted l).Pairwise (· ≤ ·)
  mean_ok : ∀ l, l ≠ [] → ∃ m, mean l = .ok m

structure LatencyReport (α : Type) where
  count : Nat
  min : α
  max : α
  mean : α
  median : Option α
  p95 : Option α
  p99 : Option α
  p999 : Option α
  stddev : α
  histogramCountsLe : List (ℚ × Nat)

/-- A report, or a count of zero with an error. -/
inductive LatencyStats (α : Type) where
  | noData (error : String)
  | report (r : LatencyReport α)

/-- The buckets of the histogram, in milliseconds. -/
def buckets : List ℚ := [0, 1 / 2, 1, 2, 5, 10, 50, 100, 500, 1000]

variable [Add α] [Sub α] [Mul α] [RatCast α] [LE α] [DecidableLE α]

/-- `compute_latnecy_stats`. -/
def computeLatencyStats (py : Statistics α) (latencies : List α) :
    Except PyError (LatencyStats α) :=
  if latencies.isEmpty then .ok (.noData "no latency data")
  else do
    let n := latencies.length
    let latSorted := py.sorted latencies
    let minimum ← item latSorted 0
    let maximum ← item latSorted (-1)
    let meanV ← py.mean latSorted
    let medianV ← percentile latSorted 50
    let p95 ← percentile latSorted 95
    let p99 ← percentile latSorted 99
    let p999 ← percentile latSorted (999 / 10)
    let stddevV := (py.pstdev latSorted).toOption.getD ((0 : ℚ) : α)
    let hist := buckets.map fun b : ℚ => (b, latSorted.countP fun x => x ≤ (b : α))
    return .report ⟨n, minimum, maximum, meanV, medianV, p95, p99, p999, stddevV, hist⟩

end Code

/-! ### The sorted list as a sequence -/

section Sequence

variable {s : List ℚ}

/-- The values of the list, the last one from its end on. -/
def held (s : List ℚ) (nonempty : s ≠ []) (i : ℕ) : ℚ :=
  s.get ⟨min i (s.length - 1), by have := List.length_pos_iff.mpr nonempty; omega⟩

theorem held_of_lt (nonempty : s ≠ []) {i : ℕ} (inside : i < s.length) :
    held s nonempty i = s[i] := by
  have least : min i (s.length - 1) = i := by omega
  simp only [held, least, List.get_eq_getElem]

theorem held_of_le (nonempty : s ≠ []) {i : ℕ} (past : s.length - 1 ≤ i) :
    held s nonempty i = s.getLast nonempty := by
  simp only [held, Nat.min_eq_right past, List.get_eq_getElem, List.getLast_eq_getElem]

theorem held_mono (nonempty : s ≠ []) (ascending : s.Pairwise (· ≤ ·)) :
    Monotone (held s nonempty) := by
  intro i j le
  have filled : 0 < s.length := List.length_pos_iff.mpr nonempty
  rcases (min_le_min_right (s.length - 1) le).eq_or_lt with same | less
  · simp only [held, same, le_refl]
  · exact List.pairwise_iff_getElem.mp ascending _ _ (by omega) (by omega) less

/-- The rank of a percentile, the first for one below 0 and the last for one above 100. -/
def rank (s : List ℚ) (p : ℚ) : ℚ := (s.length - 1 : ℕ) * (max 0 (min p 100) / 100)

theorem rank_mono (s : List ℚ) {p q : ℚ} (le : p ≤ q) : rank s p ≤ rank s q := by
  unfold rank
  gcongr

theorem rank_mem_Icc (s : List ℚ) (p : ℚ) : 0 ≤ rank s p ∧ rank s p ≤ (s.length - 1 : ℕ) := by
  have part : max 0 (min p 100) / 100 ≤ 1 := by
    rw [div_le_one (by norm_num)]
    exact max_le (by norm_num) (min_le_right p 100)
  exact ⟨by unfold rank; positivity, mul_le_of_le_one_right (Nat.cast_nonneg _) part⟩

theorem interpolation_eq (nonempty : s ≠ []) (p : ℚ) :
    interpolation s p = some (interpolate (held s nonempty) (rank s p)) := by
  have filled : 0 < s.length := List.length_pos_iff.mpr nonempty
  have ranks : ((s.length - 1 : ℕ) : ℚ) = (s.length : ℚ) - 1 := by
    rw [Nat.cast_sub filled, Nat.cast_one]
  unfold interpolation
  by_cases low : p ≤ 0
  · have first : rank s p = (0 : ℕ) := by
      rw [rank, max_eq_left ((min_le_left p 100).trans low), zero_div, mul_zero, Nat.cast_zero]
    rw [atRank, if_pos low, first, interpolate_natCast, held_of_lt nonempty filled,
      List.head?_eq_getElem?, List.getElem?_eq_getElem filled]
  by_cases high : 100 ≤ p
  · have last : rank s p = (s.length - 1 : ℕ) := by
      rw [rank, min_eq_right high, max_eq_right (by norm_num), div_self (by norm_num), mul_one]
    rw [atRank, if_neg low, if_pos high, last, interpolate_natCast, held_of_le nonempty (le_refl _),
      List.getLast?_eq_getLast_of_ne_nil nonempty]
  · have between : rank s p = ((s.length : ℚ) - 1) * p / 100 := by
      rw [rank, min_eq_left (not_le.mp high).le, max_eq_right (not_le.mp low).le, ranks,
        mul_div_assoc]
    have inside := (rank_bounds nonempty (not_le.mp low) (not_le.mp high)).2
    simp only [atRank, if_neg low, if_neg high, ← between] at inside ⊢
    rw [List.getElem?_eq_getElem inside, Option.map_some, interpolate, held_of_lt nonempty inside]
    by_cases next : ⌊rank s p⌋₊ + 1 < s.length
    · rw [List.getElem?_eq_getElem next, Option.elim_some, held_of_lt nonempty next]
    · -- The rank is the last one, from which on the sequence stays.
      have last : s[⌊rank s p⌋₊] = s.getLast nonempty := by
        rw [← held_of_lt nonempty inside, held_of_le nonempty (by omega)]
      rw [List.getElem?_eq_none (by omega), Option.elim_none, held_of_le nonempty (by omega), last,
        sub_self, zero_mul, add_zero]

theorem interpolate_held_mono (nonempty : s ≠ []) (ascending : s.Pairwise (· ≤ ·)) {p q : ℚ}
    (le : p ≤ q) :
    interpolate (held s nonempty) (rank s p) ≤ interpolate (held s nonempty) (rank s q) :=
  interpolate_mono (held_mono nonempty ascending) (rank_mem_Icc s p).1 (rank_mono s le)

theorem interpolate_held_mem (nonempty : s ≠ []) (ascending : s.Pairwise (· ≤ ·)) (p : ℚ) :
    s.head nonempty ≤ interpolate (held s nonempty) (rank s p) ∧
      interpolate (held s nonempty) (rank s p) ≤ s.getLast nonempty := by
  obtain ⟨least, most⟩ := rank_mem_Icc s p
  have filled : 0 < s.length := List.length_pos_iff.mpr nonempty
  have bounds := interpolate_mem_Icc (held_mono nonempty ascending)
    (by rwa [Nat.cast_zero] : ((0 : ℕ) : ℚ) ≤ rank s p) most
  rwa [held_of_lt nonempty filled, held_of_le nonempty (le_refl _), ← List.head_eq_getElem nonempty]
    at bounds

end Sequence

/-! ### Reports -/

theorem Statistics.sorted_ne_nil {α : Type} [LE α] (py : Statistics α) {latencies : List α}
    (nonempty : latencies ≠ []) : py.sorted latencies ≠ [] := by
  rw [← List.length_pos_iff, (py.sorted_perm latencies).length_eq]
  exact List.length_pos_iff.mpr nonempty

/-- The report of latencies takes its ends and its percentiles from the sorted list. -/
theorem computeLatencyStats_eq {α : Type} [Add α] [Sub α] [Mul α] [RatCast α] [LE α] [DecidableLE α]
    (py : Statistics α) {latencies : List α} (nonempty : latencies ≠ []) :
    ∃ r, computeLatencyStats py latencies = .ok (.report r) ∧
      r.min = (py.sorted latencies).head (py.sorted_ne_nil nonempty) ∧
      r.max = (py.sorted latencies).getLast (py.sorted_ne_nil nonempty) ∧
      r.median = atRank linear (py.sorted latencies) 50 ∧
        r.p95 = atRank linear (py.sorted latencies) 95 ∧
      r.p99 = atRank linear (py.sorted latencies) 99 ∧
      r.p999 = atRank linear (py.sorted latencies) (999 / 10) := by
  have filled := py.sorted_ne_nil nonempty
  obtain ⟨m, mean⟩ := py.mean_ok _ filled
  have first : item (py.sorted latencies) 0 = .ok ((py.sorted latencies).head filled) := by
    rw [List.head_eq_getElem]
    exact item_natCast (List.length_pos_iff.mpr filled)
  simp only [computeLatencyStats, List.isEmpty_iff, if_neg nonempty, percentile_eq, mean, first,
    item_last filled]
  exact ⟨_, rfl, rfl, rfl, rfl, rfl, rfl, rfl⟩

theorem Statistics.sorted_pairwise (py : Statistics ℚ) (latencies : List ℚ) :
    (py.sorted latencies).Pairwise (· ≤ ·) :=
  py.sorted_ascending latencies (fun a _ b _ => le_total a b) fun _ _ _ _ _ _ => le_trans

/-- A percentile of an ascending list lies between its ends and grows with its rank, and so the
report's come in order. -/
theorem percentiles_ordered :
    (∀ (s : List ℚ) (nonempty : s ≠ []), s.Pairwise (· ≤ ·) → ∀ p q, p ≤ q →
      ∃ x y, percentile s p = .ok (some x) ∧ percentile s q = .ok (some y) ∧
        s.head nonempty ≤ x ∧ x ≤ s.getLast nonempty ∧ x ≤ y) ∧
    ∀ (py : Statistics ℚ) (latencies : List ℚ), latencies ≠ [] →
      ∃ r median p95 p99 p999, computeLatencyStats py latencies = .ok (.report r) ∧
        r.median = some median ∧ r.p95 = some p95 ∧ r.p99 = some p99 ∧ r.p999 = some p999 ∧
        r.min ≤ median ∧ median ≤ p95 ∧ p95 ≤ p99 ∧ p99 ≤ p999 ∧ p999 ≤ r.max := by
  constructor
  · intro s nonempty ascending p q le
    have bounds := interpolate_held_mem nonempty ascending p
    refine ⟨_, _, ?_, ?_, bounds.1, bounds.2, interpolate_held_mono nonempty ascending le⟩
    · rw [percentile_interpolates, interpolation_eq nonempty]
    · rw [percentile_interpolates, interpolation_eq nonempty]
  · intro py latencies some_
    obtain ⟨r, computed, least, most, median, p95, p99, p999⟩ := computeLatencyStats_eq py some_
    have nonempty := py.sorted_ne_nil some_
    have ascending := py.sorted_pairwise latencies
    have value := fun p => interpolation_eq nonempty p
    have grows := fun {p q : ℚ} (le : p ≤ q) => interpolate_held_mono nonempty ascending le
    refine ⟨r, _, _, _, _, computed, median.trans (value 50), p95.trans (value 95),
      p99.trans (value 99),
      p999.trans (value (999 / 10)), ?_, grows (by norm_num), grows (by norm_num),
        grows (by norm_num), ?_⟩
    · exact least ▸ (interpolate_held_mem nonempty ascending 50).1
    · exact most ▸ (interpolate_held_mem nonempty ascending (999 / 10)).2

/-- The library on rational numbers, with a deviation that is exact where it is rational. -/
def exactStatistics : Statistics ℚ where
  sorted l := l.mergeSort fun a b => a ≤ b
  mean l := if l = [] then .error .statisticsError else .ok (l.sum / l.length)
  pstdev l :=
    let mean := l.sum / l.length
    if l = [] then .error .statisticsError
    else .ok (Rat.sqrt ((l.map fun x => (x - mean) ^ 2).sum / l.length))
  sorted_perm l := List.mergeSort_perm l _
  sorted_ascending l _ _ := by
    simpa using @List.pairwise_mergeSort ℚ (fun a b => a ≤ b) (by simpa using fun _ _ _ => le_trans)
      (by simpa using le_total) l
  mean_ok l filled := ⟨_, if_neg filled⟩

theorem percentiles_ordered_of_two :
    (∃ x y, percentile [1, 3] 50 = .ok (some x) ∧ percentile [1, 3] 95 = .ok (some y) ∧
      (1 : ℚ) ≤ x ∧ x ≤ 3 ∧ x ≤ y) ∧
    ∃ r median p95 p99 p999, computeLatencyStats exactStatistics [3, 1] = .ok (.report r) ∧
      r.median = some median ∧ r.p95 = some p95 ∧ r.p99 = some p99 ∧ r.p999 = some p999 ∧
      r.min ≤ median ∧ median ≤ p95 ∧ p95 ≤ p99 ∧ p99 ≤ p999 ∧ p999 ≤ r.max :=
  ⟨percentiles_ordered.1 [1, 3] (List.cons_ne_nil _ _) (by decide +kernel) 50 95 (by norm_num),
    percentiles_ordered.2 exactStatistics [3, 1] (List.cons_ne_nil _ _)⟩

end EtradePipeline
