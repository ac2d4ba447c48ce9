import EtradePipeline.Kit.Interpolation
import Mathlib.Algebra.Order.Field.Rat
import Mathlib.Data.Rat.Floor

/-! `percentile` as the events API has it and as the benchmark has it.  Ranks are exact; the values
may be of any type with the arithmetic of a number.  The service interpolates between the closest
ranks.  In the benchmark a parenthesis is misplaced, and it multiplies the value above by the
fraction. -/

namespace EtradePipeline

/-! ### The code -/

/-- The exceptions that the service's expressions raise. -/
inductive PyError where
  | indexError
  | keyError
  | typeError
  | valueError
  | overflowError
  | statisticsError
  deriving DecidableEq

section Code

variable {α : Type*}

/-- `s[i]`, where a negative index counts from the end. -/
def item (s : List α) (i : Int) : Except PyError α :=
  let i := if i < 0 then s.length + i else i
  if i < 0 then .error .indexError else (s[i.toNat]?).elim (.error .indexError) .ok

/-- `int(x)`. -/
def truncate (x : ℚ) : Int := x.num.tdiv x.den

/-- The two copies: `whole` is the whole part of the rank, and `between` the value between two. -/
def percentileBy (whole : ℚ → Int) (between : α → α → ℚ → α) (sortedVals : List α) (p : ℚ) :
    Except PyError (Option α) :=
  let n : Int := sortedVals.length
  if n = 0 then .ok none
  else if p ≤ 0 then some <$> item sortedVals 0
  else if 100 ≤ p then some <$> item sortedVals (-1)
  else
    let k : ℚ := (n - 1) * (p / 100)
    let f := whole k
    let c := k - f
    if f + 1 < n then do
      let lower ← item sortedVals f
      let upper ← item sortedVals (f + 1)
      return some (between lower upper c)
    else some <$> item sortedVals f

variable [Add α] [Sub α] [Mul α] [RatCast α]

/-- `float(sorted_vals[f]) + (sorted_vals[f+1]-sorted_vals[f])*c`. -/
def linear (lower upper : α) (c : ℚ) : α := lower + (upper - lower) * (c : α)

/-- `float(sorted_vals[f] + ( sorted_vals[f+1] - sorted_vals[f])) * c`. -/
def Benchmark.scaled (lower upper : α) (c : ℚ) : α := (lower + (upper - lower)) * (c : α)

/-- `percentile` of `app/main.py`. -/
def percentile (sortedVals : List α) (p : ℚ) : Except PyError (Option α) :=
  percentileBy truncate linear sortedVals p

/-- `percentile` of `scripts/benchmark_sender.py`. -/
def Benchmark.percentile (sortedVals : List α) (p : ℚ) : Except PyError (Option α) :=
  percentileBy Rat.floor scaled sortedVals p

end Code

/-! ### The closest ranks -/

section Ranks

variable {α : Type*} {s : List α} {p : ℚ}

/-- The value at a percentile, `between` those at the closest ranks. -/
def atRank (between : α → α → ℚ → α) (s : List α) (p : ℚ) : Option α :=
  if p ≤ 0 then s.head?
  else if 100 ≤ p then s.getLast?
  else
    let k : ℚ := (s.length - 1) * p / 100
    s[⌊k⌋₊]?.map fun lower => s[⌊k⌋₊ + 1]?.elim lower fun upper => between lower upper (k - ⌊k⌋₊)

theorem item_natCast {i : Nat} (inside : i < s.length) : item s i = .ok s[i] := by
  have least : ¬ (i : Int) < 0 := by omega
  simp only [item, if_neg least, Int.toNat_natCast, List.getElem?_eq_getElem inside,
    Option.elim_some]

theorem item_last (nonempty : s ≠ []) : item s (-1) = .ok (s.getLast nonempty) := by
  have filled : 0 < s.length := List.length_pos_iff.mpr nonempty
  have least : ¬ (s.length : Int) + -1 < 0 := by omega
  have last : ((s.length : Int) + -1).toNat = s.length - 1 := by omega
  have inside : s.length - 1 < s.length := by omega
  simp only [item, if_pos (by decide : (-1 : Int) < 0), if_neg least, last,
    List.getElem?_eq_getElem inside, Option.elim_some, List.getLast_eq_getElem]

theorem truncate_eq {k : ℚ} (nonneg : 0 ≤ k) : truncate k = (⌊k⌋₊ : Int) := by
  rw [Int.natCast_floor_eq_floor nonneg, Rat.floor_def', truncate,
    Int.tdiv_eq_ediv_of_nonneg (Rat.num_nonneg.mpr nonneg)]

theorem rank_eq (s : List α) (p : ℚ) :
    (((s.length : Int) : ℚ) - 1) * (p / 100) = ((s.length : ℚ) - 1) * p / 100 := by
  push_cast
  ring

theorem rank_bounds (nonempty : s ≠ []) (low : 0 < p) (high : p < 100) :
    0 ≤ ((s.length : ℚ) - 1) * p / 100 ∧ ⌊((s.length : ℚ) - 1) * p / 100⌋₊ < s.length := by
  have filled : (1 : ℚ) ≤ s.length := by exact_mod_cast List.length_pos_iff.mpr nonempty
  have least : 0 ≤ ((s.length : ℚ) - 1) * p / 100 := by
    have : 0 ≤ (s.length : ℚ) - 1 := by linarith
    positivity
  refine ⟨least, (Nat.floor_lt least).mpr ?_⟩
  rw [div_lt_iff₀ (by norm_num)]
  nlinarith

theorem percentileBy_eq {whole : ℚ → Int} (floor : ∀ k, 0 ≤ k → whole k = (⌊k⌋₊ : Int))
    (between : α → α → ℚ → α) (s : List α) (p : ℚ) :
    percentileBy whole between s p = .ok (atRank between s p) := by
  by_cases nonempty : s = []
  · simp [percentileBy, atRank, nonempty]
  have filled : 0 < s.length := List.length_pos_iff.mpr nonempty
  have positive : ¬ (s.length : Int) = 0 := by omega
  by_cases low : p ≤ 0
  · have first := item_natCast filled
    simp only [percentileBy, atRank, if_neg positive, if_pos low]
    rw [List.head?_eq_getElem?, List.getElem?_eq_getElem filled]
    exact congrArg (some <$> ·) first
  by_cases high : 100 ≤ p
  · simp only [percentileBy, atRank, if_neg positive, if_neg low, if_pos high, item_last nonempty,
      List.getLast?_eq_getLast_of_ne_nil nonempty]
    rfl
  obtain ⟨least, inside⟩ := rank_bounds nonempty (not_le.mp low) (not_le.mp high)
  simp only [percentileBy, atRank, if_neg positive, if_neg low, if_neg high, rank_eq, floor _ least,
    item_natCast inside, List.getElem?_eq_getElem inside, Option.map_some]
  generalize ⌊((s.length : ℚ) - 1) * p / 100⌋₊ = f at inside ⊢
  by_cases next : f + 1 < s.length
  · have upper := item_natCast next
    push_cast at upper
    rw [if_pos (by omega), upper, List.getElem?_eq_getElem next, Int.cast_natCast]
    rfl
  · rw [if_neg (by omega), List.getElem?_eq_none (by omega)]
    rfl

theorem atRank_isSome (between : α → α → ℚ → α) (nonempty : s ≠ []) (p : ℚ) :
    (atRank between s p).isSome = true := by
  unfold atRank
  split_ifs with low high
  · rwa [List.isSome_head?]
  · rw [List.getLast?_eq_getLast_of_ne_nil nonempty, Option.isSome_some]
  · have inside := (rank_bounds nonempty (not_le.mp low) (not_le.mp high)).2
    simp only [List.getElem?_eq_getElem inside, Option.map_some, Option.isSome_some]

variable [Add α] [Sub α] [Mul α] [RatCast α]

theorem percentile_eq (s : List α) (p : ℚ) : percentile s p = .ok (atRank linear s p) :=
  percentileBy_eq (fun _ => truncate_eq) linear s p

theorem Benchmark.percentile_eq (s : List α) (p : ℚ) :
    Benchmark.percentile s p = .ok (atRank Benchmark.scaled s p) :=
  percentileBy_eq (fun _ nonneg => (Int.natCast_floor_eq_floor nonneg).symm) scaled s p

end Ranks

/-! ### The two copies -/

/-- The linear interpolation between the closest ranks, and beyond them the value at the end. -/
def interpolation (s : List ℚ) (p : ℚ) : Option ℚ :=
  atRank (fun lower upper c => lower + (upper - lower) * c) s p

theorem percentile_interpolates (s : List ℚ) (p : ℚ) : percentile s p = .ok (interpolation s p) :=
  percentile_eq s p

theorem next_rank {s : List ℚ} {p : ℚ} (several : 1 < s.length) (low : 0 < p) (high : p < 100) :
    ⌊((s.length : ℚ) - 1) * p / 100⌋₊ + 1 < s.length := by
  have nonempty : s ≠ [] := List.length_pos_iff.mp (by omega)
  have ranks : ((s.length - 1 : Nat) : ℚ) = (s.length : ℚ) - 1 := by
    rw [Nat.cast_sub several.le, Nat.cast_one]
  have below : ⌊((s.length : ℚ) - 1) * p / 100⌋₊ < s.length - 1 := by
    rw [Nat.floor_lt (rank_bounds nonempty low high).1, ranks, div_lt_iff₀ (by norm_num)]
    have : (1 : ℚ) < s.length := by exact_mod_cast several
    nlinarith
  omega

theorem scaled_eq_linear_iff {lower upper c : ℚ} (part : c < 1) :
    Benchmark.scaled lower upper c = lower + (upper - lower) * c ↔ lower = 0 := by
  have gap : 1 - c ≠ 0 := by linarith
  simp only [Benchmark.scaled, Rat.cast_id]
  constructor
  · intro same
    have product : lower * (1 - c) = 0 := by linarith
    exact (mul_eq_zero.mp product).resolve_right gap
  · rintro rfl
    ring

/-- Both copies give the linear interpolation between the closest ranks exactly when the list has
one value at most, the percentile is at an end, or the value at the rank below is zero. -/
theorem percentiles_agree_iff (s : List ℚ) (p : ℚ) :
    (percentile s p = .ok (interpolation s p) ∧
      Benchmark.percentile s p = .ok (interpolation s p)) ↔
      s.length ≤ 1 ∨ p ≤ 0 ∨ 100 ≤ p ∨ s[⌊((s.length : ℚ) - 1) * p / 100⌋₊]? = some 0 := by
  rw [Benchmark.percentile_eq, and_iff_right (percentile_interpolates s p), Except.ok.injEq]
  unfold interpolation
  by_cases low : p ≤ 0
  · simp [atRank, low]
  by_cases high : 100 ≤ p
  · simp [atRank, high, low]
  by_cases several : 1 < s.length
  · have next := next_rank several (not_le.mp low) (not_le.mp high)
    have part := sub_lt_iff_lt_add'.mpr (Nat.lt_floor_add_one (((s.length : ℚ) - 1) * p / 100))
    simp only [atRank, low, high, if_false, not_le.mpr several, false_or,
      List.getElem?_eq_getElem next, List.getElem?_eq_getElem (Nat.lt_of_succ_lt next),
        Option.map_some,
      Option.elim_some, Option.some.injEq, scaled_eq_linear_iff part]
  · refine iff_of_true ?_ (.inl (Nat.le_of_not_lt several))
    match s with
    | [] | [x] => simp [atRank]
    | x :: y :: s => simp at several

/-- Of the latencies 1 and 2 the benchmark reports 1 as the median. -/
theorem benchmark_median_low :
    percentile [1, 2] 50 = .ok (some (3 / 2 : ℚ)) ∧
      Benchmark.percentile [1, 2] 50 = .ok (some (1 : ℚ)) := by
  decide +kernel

end EtradePipeline
