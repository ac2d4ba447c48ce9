import EtradePipeline.Kit.Ranks
import EtradePipeline.Latency.Bench
import EtradePipeline.Receiver.MetricsPage
import EtradePipeline.Receiver.Rounding
import EtradePipeline.Service.LatencyStats
import EtradePipeline.Service.RecordFile

/-! `compute_latency_stats.py` on the file of the latency server.  Its report is the one of the
datagrams that arrived, in any order, with repetitions and with those of other senders; the packets
that were lost have no part in it. -/

namespace EtradePipeline

open Kit.BigEndian (ofBigEndian ofBigEndian_lt)
open Kit.Csv (rows textLines)

/-! ### The script -/

namespace LatencyScript

section Code

variable {α : Type} [LE α] [Min α] [Max α]

/-- What the script prints of samples. -/
structure Summary (α : Type) where
  count : Nat
  min : α
  max : α
  mean : α
  p50 : α
  p95 : α
  p99 : α

inductive Failure where
  | csvError
  | stopIteration
  | raised (e : PyError)

/-- `pct` of the sorted values. -/
def pct (vals : List α) (p : Nat) : Except PyError α :=
  let i := truncate (roundToDouble (roundToDouble ((vals.length * p : Nat) : ℚ) / 100))
  item vals (min (max i 0) ((vals.length : Int) - 1))

/-- The numbers of the fourth column.  A row without one is skipped. -/
def latencyColumn (float : PyStr → Option α) (table : List (List PyStr)) : List α :=
  table.filterMap fun row => row[3]?.bind float

/-- The values of the report, in the order in which they are printed. -/
def summary (py : Statistics α) (vals : List α) : Except PyError (Summary α) := do
  let least ← vals.min?.elim (.error .valueError) .ok
  let most ← vals.max?.elim (.error .valueError) .ok
  let mean ← py.mean vals
  let p50 ← pct vals 50
  let p95 ← pct vals 95
  let p99 ← pct vals 99
  return ⟨vals.length, least, most, mean, p50, p95, p99⟩

/-- The script on a file, with `none` for `no samples`. -/
def run (py : Statistics α) (float : PyStr → Option α) (decode : Bytes → PyStr) (file : Bytes) :
    Except Failure (Option (Summary α)) :=
  match rows (textLines (translateNewlines (decode file))) with
  | none => .error .csvError
  -- there is no header for `next` to take
  | some [] => .error .stopIteration
  | some (_ :: table) =>
    let vals := latencyColumn float table
    if vals.isEmpty then .ok none
    else ((summary py (py.sorted vals)).map some).mapError .raised

end Code

/-! ### The report -/

/-- A sample that a part of the samples does not exceed: more than `p` of a hundred are at most `v`,
and no more than `p` of a hundred are less. -/
structure AtPercent (samples : List ℚ) (p : Nat) (v : ℚ) : Prop where
  sample : v ∈ samples
  reached : samples.length * p < 100 * samples.countP (fun x => x ≤ v)
  below : 100 * samples.countP (fun x => x < v) ≤ samples.length * p

structure Summary.Describes (py : Statistics ℚ) (samples : List ℚ) (s : Summary ℚ) : Prop where
  count : s.count = samples.length
  least : s.min ∈ samples ∧ ∀ v ∈ samples, s.min ≤ v
  most : s.max ∈ samples ∧ ∀ v ∈ samples, v ≤ s.max
  mean : ∃ l, l.Perm samples ∧ py.mean l = .ok s.mean
  p50 : AtPercent samples 50 s.p50
  p95 : AtPercent samples 95 s.p95
  p99 : AtPercent samples 99 s.p99

theorem AtPercent.perm {l samples : List ℚ} {p : Nat} {v : ℚ} (at_ : AtPercent l p v)
    (same : l.Perm samples) :
    AtPercent samples p v where
  sample := same.mem_iff.mp at_.sample
  reached := by
    rw [← same.length_eq, ← same.countP_eq]
    exact at_.reached
  below := by
    rw [← same.length_eq, ← same.countP_eq]
    exact at_.below

/-- The whole part of a count over a hundred is exact for what a `double` can count. -/
theorem truncate_hundredth {m : Nat} (small : m < 2 ^ 53) :
    truncate (roundToDouble (roundToDouble (m : ℚ) / 100)) = ((m / 100 : Nat) : Int) := by
  have whole : roundToDouble (m : ℚ) = m := by
    have kept := @roundToDouble_intCast m (by rw [Nat.abs_cast]; exact_mod_cast small)
    rwa [Int.cast_natCast] at kept
  have floor := floor_roundToDouble_div small (by decide : 0 < 100) (by decide)
  rw [Nat.cast_ofNat] at floor
  have nonneg : 0 ≤ roundToDouble ((m : ℚ) / 100) := by
    have least : (0 : Int) ≤ (roundToDouble ((m : ℚ) / 100)).floor := by
      rw [floor]
      exact Int.natCast_nonneg _
    exact Rat.le_floor_iff.mp least
  rw [whole, ← floor, truncate_eq nonneg, Int.natCast_floor_eq_floor nonneg]
  rfl

/-- The value at the index of the percentile. -/
theorem pct_atPercent {vals : List ℚ} (ascending : vals.Pairwise (· ≤ ·)) (nonempty : vals ≠ [])
    (few : vals.length < 2 ^ 46) {p : Nat} (high : p < 100) :
    ∃ v, pct vals p = .ok v ∧ AtPercent vals p v := by
  have filled : 0 < vals.length := List.length_pos_iff.mpr nonempty
  have small : vals.length * p < 2 ^ 53 := by
    calc vals.length * p ≤ vals.length * 2 ^ 7 := Nat.mul_le_mul_left _ (by omega)
      _ < 2 ^ 53 := by omega
  have inside : vals.length * p / 100 < vals.length := by
    rw [Nat.div_lt_iff_lt_mul (by decide)]
    exact Nat.mul_lt_mul_of_pos_left high filled
  have clamped : min (max ((vals.length * p / 100 : Nat) : Int) 0) ((vals.length : Int) - 1) =
      ((vals.length * p / 100 : Nat) : Int) := by
    omega
  refine ⟨vals[vals.length * p / 100], ?_, List.getElem_mem inside, ?_, ?_⟩
  · simp only [pct, truncate_hundredth small, clamped, item_natCast inside]
  · have reached := Kit.Ranks.succ_le_countP ascending (List.getElem?_eq_getElem inside)
    omega
  · have below := Kit.Ranks.countP_le ascending (List.getElem?_eq_getElem inside)
    omega

/-- The summary of the sorted samples. -/
theorem summary_sorted (py : Statistics ℚ) {samples : List ℚ} (nonempty : samples ≠ [])
    (few : samples.length < 2 ^ 46) :
    ∃ s, summary py (py.sorted samples) = .ok s ∧ s.Describes py samples := by
  have same := py.sorted_perm samples
  have filled := py.sorted_ne_nil nonempty
  have ascending := py.sorted_pairwise samples
  have fits : (py.sorted samples).length < 2 ^ 46 := same.length_eq ▸ few
  obtain ⟨least, min_⟩ := Option.isSome_iff_exists.mp (List.isSome_min?_of_ne_nil filled)
  obtain ⟨most, max_⟩ := Option.isSome_iff_exists.mp (List.isSome_max?_of_ne_nil filled)
  obtain ⟨mean, mean_⟩ := py.mean_ok _ filled
  obtain ⟨p50, read50, at50⟩ := pct_atPercent ascending filled fits (by decide : 50 < 100)
  obtain ⟨p95, read95, at95⟩ := pct_atPercent ascending filled fits (by decide : 95 < 100)
  obtain ⟨p99, read99, at99⟩ := pct_atPercent ascending filled fits (by decide : 99 < 100)
  obtain ⟨minMem, minLe⟩ := List.min?_eq_some_iff.mp min_
  obtain ⟨maxMem, leMax⟩ := List.max?_eq_some_iff.mp max_
  refine ⟨⟨(py.sorted samples).length, least, most, mean, p50, p95, p99⟩, ?_,
    same.length_eq, ?_, ?_, ?_, at50.perm same, at95.perm same, at99.perm same⟩
  · simp only [summary, min_, max_, mean_, read50, read95, read99]
    rfl
  · exact ⟨same.mem_iff.mp minMem, fun v member => minLe v (same.mem_iff.mpr member)⟩
  · exact ⟨same.mem_iff.mp maxMem, fun v member => leMax v (same.mem_iff.mpr member)⟩
  · exact ⟨_, same, mean_⟩

end LatencyScript

/-! ### A run -/

/-- A datagram that the server receives, with the clock after it: a packet of the run or one of
another sender.  The network loses, repeats and reorders packets. -/
inductive Delivery where
  | sent (i : Nat) (recvNs : UInt64)
  | stray (data : Bytes) (recvNs : UInt64)

namespace Delivery

def arrived (packets : List Bytes) : Delivery → Option Received
  | .sent i recvNs => packets[i]?.map (⟨·, recvNs⟩)
  | .stray data recvNs => some ⟨data, recvNs⟩

/-- The microseconds from the sender's clock to the server's.  A datagram of another sender counts
as one that was sent at the time that it appears to have. -/
def sample (clock : List UInt64) : Delivery → Option Nat
  | .sent i recvNs => clock[i]?.map fun sendNs => elapsedUs sendNs.toNat recvNs.toNat
  | .stray data recvNs =>
    if 16 ≤ data.length then some (elapsedUs (ofBigEndian ((data.drop 8).take 8)) recvNs.toNat)
    else none

/-- The row of a datagram has its sample. -/
theorem latencyRow_arrived (payloadSize : Nat) (clock : List UInt64) (d : Delivery) :
    ((d.arrived (benchPackets payloadSize clock)).bind latencyRow).map (fun row =>
      row.latencyUs.toNat) =
      d.sample clock := by
  cases d with
  | sent i recvNs =>
    rw [arrived, sample, benchPackets, List.getElem?_mapIdx]
    cases clock[i]? with
    | none => rfl
    | some sendNs =>
      obtain ⟨row, read, -, -, -, latency⟩ :=
        latencyRow_benchPacket payloadSize (UInt64.ofNat (i + 1)) sendNs recvNs
      rw [Option.map_some, Option.map_some, Option.bind_some, read, Option.map_some, latency,
        Option.map_some]
  | stray data recvNs =>
    rw [arrived, sample, Option.bind_some, latencyRow]
    by_cases whole : 16 ≤ data.length
    · have time : ofBigEndian ((data.drop 8).take 8) < 2 ^ 64 := by
        have width : ((data.drop 8).take 8).length = 8 := by
          rw [List.length_take, List.length_drop]
          omega
        have bound := ofBigEndian_lt ((data.drop 8).take 8)
        rwa [width] at bound
      rw [if_pos whole, if_pos whole, Option.map_some, latencyUs_toNat,
        UInt64.toNat_ofNat_of_lt' time]
    · rw [if_neg whole, if_neg whole, Option.map_none]

end Delivery

/-- The fourth column of the file, below the header, has the samples. -/
theorem latencyColumn_table {float : PyStr → Option ℚ}
    (reads : ∀ n < 2 ^ 64, float ((printNat n).map UInt8.toNat) = some (roundToDouble n))
    (rows : List LatencyRow) :
    LatencyScript.latencyColumn float (rows.map fun row => cells row.fields) =
      rows.map fun row => roundToDouble row.latencyUs.toNat := by
  rw [LatencyScript.latencyColumn, List.filterMap_map, ← List.filterMap_eq_map]
  refine List.filterMap_congr fun row _ => ?_
  exact reads row.latencyUs.toNat row.latencyUs.toNat_lt

/-- The report on a run of the bench is that of the latencies of the datagrams that arrived. -/
theorem latency_bench_measures (py : Statistics ℚ) (float : PyStr → Option ℚ)
    (reads : ∀ n < 2 ^ 64, float ((printNat n).map UInt8.toNat) = some (roundToDouble n))
    (decode : Bytes → PyStr)
    (decodes : ∀ s : Bytes, (∀ c ∈ s, c < 128) → decode s = s.map UInt8.toNat)
    (payloadSize : Nat) (clock : List UInt64) (deliveries : List Delivery)
    (few : deliveries.length < 2 ^ 46) :
    let file :=
      latencyFile (deliveries.filterMap (Delivery.arrived (benchPackets payloadSize clock)))
    let samples := (deliveries.filterMap (Delivery.sample clock)).map fun us : Nat =>
      roundToDouble us
    (samples = [] → LatencyScript.run py float decode file = .ok none) ∧
      (samples ≠ [] → ∃ s, LatencyScript.run py float decode file = .ok (some s) ∧
        s.Describes py samples) := by
  intro file samples
  have plain : translateNewlines (decode file) = file.map UInt8.toNat := by
    rw [decodes file fun c member => (latencyFile_plain _ c member).1]
    exact Benchmark.translateNewlines_bytes fun c member => (latencyFile_plain _ c member).2
  have column : LatencyScript.latencyColumn float
      (((deliveries.filterMap (Delivery.arrived (benchPackets payloadSize clock))).filterMap
        latencyRow).map
        fun row => cells row.fields) = samples := by
    rw [latencyColumn_table reads]
    simp only [samples, List.filterMap_filterMap, List.map_filterMap]
    refine List.filterMap_congr fun d _ => ?_
    rw [← Delivery.latencyRow_arrived payloadSize clock d, Option.map_map]
    rfl
  have fits : samples.length < 2 ^ 46 := by
    rw [List.length_map]
    exact lt_of_le_of_lt (List.length_filterMap_le _ _) few
  have start : LatencyScript.run py float decode file =
      if samples.isEmpty then .ok none
      else ((LatencyScript.summary py (py.sorted samples)).map some).mapError .raised := by
    simp only [LatencyScript.run, file, plain, rows_latencyFile, latencyTable, column]
  refine ⟨fun none_ => ?_, fun some_ => ?_⟩
  · rw [start, none_]
    rfl
  · obtain ⟨s, computed, describes⟩ := LatencyScript.summary_sorted py some_ fits
    refine ⟨s, ?_, describes⟩
    rw [start, if_neg (by simpa using some_), computed]
    rfl

/-- `float` of decimal digits. -/
def floatOfDigits (text : PyStr) : Option ℚ :=
  match readNat (text.map UInt8.ofNat) with
  | some (n, []) => some (roundToDouble n)
  | _ => none

theorem floatOfDigits_printNat (n : Nat) :
    floatOfDigits ((printNat n).map UInt8.toNat) = some (roundToDouble n) := by
  have read := @readNat_printNat n [] (by simp [NoDigit])
  rw [List.append_nil] at read
  simp only [floatOfDigits, List.map_map, Function.comp_def, UInt8.ofNat_toNat, List.map_id', read]

/-- Of three packets the second is lost and the third comes first, and again at the end. -/
def shuffledDeliveries : List Delivery :=
  [.sent 2 3005000, .sent 0 1007500, .stray (bytes "hello") 4000000, .sent 2 3009000]

theorem latency_bench_measures_shuffled :
    ∃ s, LatencyScript.run exactStatistics floatOfDigits asciiDecode (latencyFile
        (shuffledDeliveries.filterMap
          (Delivery.arrived (benchPackets 32 [1000000, 2000000, 3000000])))) =
        .ok (some s) ∧
      s.count = 3 ∧ s.min = 5 ∧ s.max = 9 ∧ s.p50 = 7 := by
  have samples : ((shuffledDeliveries.filterMap (Delivery.sample [1000000, 2000000, 3000000])).map
      fun us : Nat => roundToDouble us) = [5, 7, 9] := by
    decide +kernel
  obtain ⟨s, run, describes⟩ := (latency_bench_measures exactStatistics floatOfDigits
    (fun n _ => floatOfDigits_printNat n) asciiDecode (fun _ _ => rfl) 32 [1000000,
      2000000, 3000000]
    shuffledDeliveries (by decide)).2 (by rw [samples]; exact List.cons_ne_nil _ _)
  rw [samples] at describes
  obtain ⟨count, ⟨leastMem, least⟩, ⟨mostMem, most⟩, -, ⟨middle, reached, below⟩, -, -⟩ := describes
  have small := least 5 (by simp)
  have large := most 9 (by simp)
  simp only [List.mem_cons, List.not_mem_nil, or_false] at leastMem mostMem middle
  refine ⟨s, run, count, ?_, ?_, ?_⟩
  · rcases leastMem with same | same | same <;> rw [same] at small ⊢ <;> norm_num at small
  · rcases mostMem with same | same | same <;> rw [same] at large ⊢ <;> norm_num at large
  · rcases middle with same | same | same <;> rw [same] at reached below ⊢
    · norm_num at reached
    · norm_num at below

end EtradePipeline
