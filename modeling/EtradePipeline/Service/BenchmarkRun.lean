import EtradePipeline.Receiver.Width
import EtradePipeline.Replay.Encoders
import EtradePipeline.Service.Analysis

/-! A run of the benchmark: `send_messages` sends datagrams, the network loses some of them and
brings the others in any order, the receiver records those that come, `analyze_events` counts them,
and the runner writes a row about them. -/

namespace EtradePipeline

open Kit.Json (Value get? Plain)

namespace Benchmark

/-! ### The sender -/

/-- The arguments of `send_messages`, the times that it reads, and which calls of `sendto`
succeed. -/
structure Run where
  symbol : Bytes
  startSeq : Int
  count : Nat
  msgTs : Nat → Int
  sendto : Nat → Bool

namespace Run

/-- `100.0 + (i % 100) * 0.01`. -/
def price (i : Nat) : Double :=
  .finite (roundToDouble (100 + roundToDouble ((i % 100 : Nat) * roundToDouble (1 / 100))))

/-- What the message of a round holds. -/
def fields (r : Run) (i : Nat) : Fields :=
  ⟨r.startSeq + i, r.msgTs i, r.symbol, price i, (100 + i % 10 : Nat)⟩

def payload (r : Run) (i : Nat) : Bytes :=
  sendMessages (r.fields i).seq (r.fields i).msgTs (r.fields i).symbol (r.fields i).price
    (r.fields i).size

/-- The rounds whose message is sent; `sent` is their number. -/
def sent (r : Run) : List Nat := (List.range r.count).filter r.sendto

/-- Integers of at most 18 digits, and a symbol of 1 to 31 plain ASCII characters without a bar. -/
structure Ordinary (r : Run) : Prop where
  seq : ∀ i < r.count, |r.startSeq + i| < 10 ^ 18
  msgTs : ∀ i < r.count, |r.msgTs i| < 10 ^ 18
  nonempty : r.symbol ≠ []
  short : r.symbol.length ≤ 31
  plain : ∀ c ∈ r.symbol, (Plain c ∧ c < 128) ∧ c ≠ byte '|'

end Run

/-- A datagram that reaches the receiver. -/
structure Arrival where
  message : Nat
  recvTsMs : Int
  source : Source

/-- The event that the receiver makes of it. -/
def Arrival.event (r : Run) (a : Arrival) : Option Event :=
  receiveEvent stod (r.payload a.message) a.recvTsMs a.source

/-! ### The runner -/

/-- A number, or `null` for `None`. -/
def valueOf : Option ℚ → Value
  | none => .null
  | some x => .num x

/-- The members of `stats`. -/
def statsMembers : Option Stats → List (PyStr × Value)
  | none => [(pyStr "count", .num 0)]
  | some s =>
    [(pyStr "count", .num s.count), (pyStr "min", valueOf s.min), (pyStr "max", valueOf s.max),
      (pyStr "mean", .num s.mean), (pyStr "median", valueOf s.median), (pyStr "p95", valueOf s.p95),
      (pyStr "p99", valueOf s.p99), (pyStr "stddev", .num s.stddev)]

/-- What `analyze_events` returns, and the runner reads in the output of the benchmark. -/
def Analysis.members (a : Analysis) : List (PyStr × Value) :=
  [(pyStr "parsed_count", .num a.parsedCount), (pyStr "inferred_drops", .num a.inferredDrops),
    (pyStr "seq_range",
      .arr [valueOf (a.seqRange.1.map Int.cast), valueOf (a.seqRange.2.map Int.cast)]),
    (pyStr "latency_Stats", .obj (statsMembers a.latencyStats))]

/-- `d.get(key, "")`. -/
def cell (members : List (PyStr × Value)) (key : String) : Value :=
  (get? (pyStr key) members).getD (.str [])

/-- The columns of a row of `results.csv` up to those of the processes. -/
def resultsRow (batchSize : Nat) (analysis : List (PyStr × Value)) : List Value :=
  let (seqMin, seqMax) :=
    match get? (pyStr "seq_range") analysis with
    | some (.arr [least, most]) => (least, most)
    | _ => (.null, .null)
  let latStats :=
    match get? (pyStr "latency_stats") analysis with
    | some (.obj members) => members
    | _ => []
  [.num batchSize, cell analysis "sent", cell analysis "elapsed_s", cell analysis "achieved_rate",
    cell analysis "last_seq", cell analysis "parsed_count", cell analysis "inferred_drops",
      seqMin, seqMax,
    cell latStats "count", cell latStats "min", cell latStats "mean", cell latStats "median",
    cell latStats "p95", cell latStats "p99", cell latStats "stddev"]

/-- The row has what is counted, and blanks for what the sender measures and for the latencies,
which the runner looks up under another key. -/
theorem resultsRow_eq (batchSize : Nat) (a : Analysis) :
    resultsRow batchSize a.members =
      [.num batchSize, .str [], .str [], .str [], .str [], .num a.parsedCount, .num a.inferredDrops,
        valueOf (a.seqRange.1.map Int.cast), valueOf (a.seqRange.2.map Int.cast)] ++
        List.replicate 7 (.str []) := by
  rfl

/-! ### What arrives -/

/-- The prices convert back, and are short. -/
theorem price_converts (i : Nat) :
    stod (printPrice (Run.price i)) = some (Run.price i) ∧ priceWidth (Run.price i) ≤ 20 := by
  have all : ∀ k < 100, stod (printPrice (Run.price k)) = some (Run.price k) ∧
      priceWidth (Run.price k) ≤ 20 := by
    decide +kernel
  have same : Run.price i = Run.price (i % 100) := by rw [Run.price, Run.price, Nat.mod_mod]
  rw [same]
  exact all _ (Nat.mod_lt i (by decide))

namespace Run.Ordinary

variable {r : Run} {a : Arrival}

theorem fields (ordinary : r.Ordinary) {i : Nat} (inside : i < r.count) :
    (r.fields i).Ordinary stod where
  seq := ordinary.seq i inside
  msgTs := ordinary.msgTs i inside
  size := by
    have digit := Nat.mod_lt i (by decide : 10 > 0)
    have bounds : -10 ^ 18 < ((100 + i % 10 : Nat) : Int) ∧
      ((100 + i % 10 : Nat) : Int) < 10 ^ 18 := by omega
    exact abs_lt.mpr bounds
  symbol_nonempty := ordinary.nonempty
  symbol_short := ordinary.short
  symbol_free := fun c member => by
    obtain ⟨⟨visible, -⟩, bar⟩ := ordinary.plain c member
    refine ⟨bar, ?_⟩
    rintro rfl
    exact visible.2.2 (by decide)
  converts := (price_converts i).1

/-- The event of a message has its number and its delay, and its record can be written. -/
theorem event (ordinary : r.Ordinary) (inside : a.message < r.count)
    (recv : |a.recvTsMs| < 10 ^ 18) :
    ∃ ev, a.event r = some ev ∧ ev.Recordable ∧ ev.seq = r.startSeq + a.message ∧
      ev.latencyMs = a.recvTsMs - r.msgTs a.message := by
  obtain ⟨payload, same, reads⟩ := (ordinary.fields inside).decodes_quoteText
  cases same
  obtain ⟨ev, received, seq, msgTs, symbol, price, size⟩ := reads a.recvTsMs a.source
  replace seq : ev.seq = r.startSeq + a.message := seq
  replace msgTs : ev.msgTsMs = r.msgTs a.message := msgTs
  replace size : ev.size = (100 + a.message % 10 : Nat) := size
  obtain ⟨f, -, built⟩ := receiveEvent_eq_some.mp received
  have number := abs_lt.mp (ordinary.seq _ inside)
  have sent := abs_lt.mp (ordinary.msgTs _ inside)
  have arrived := abs_lt.mp recv
  have recvTs : ev.recvTsMs = a.recvTsMs := by rw [← built]; rfl
  have latency : ev.latencyMs = a.recvTsMs - r.msgTs a.message := by
    have own : ev.latencyMs = wrap64 (a.recvTsMs - ev.msgTsMs) := by rw [← built]; rfl
    rw [own, msgTs]
    exact wrap64_of_small (by omega) (by omega)
  have fits : (recordText ev).length < 512 := by
    have seqWidth : intWidth ev.seq ≤ 20 := intWidth_le (by omega) (by omega)
    have msgWidth : intWidth ev.msgTsMs ≤ 20 := intWidth_le (by omega) (by omega)
    have recvWidth : intWidth ev.recvTsMs ≤ 20 := intWidth_le (by omega) (by omega)
    have latencyWidth : intWidth ev.latencyMs ≤ 20 := intWidth_le (by omega) (by omega)
    have sizeWidth : intWidth ev.size ≤ 20 := intWidth_le (by omega) (by omega)
    have priced : priceWidth ev.price ≤ 20 := price ▸ (price_converts a.message).2
    have symbolWidth : ev.symbolStr.length < 32 := ev.symbol.cstr_length_lt
    have srcWidth : ev.src.cstr.length < 64 := ev.src.cstr_length_lt
    rw [length_recordText, recordWidth]
    omega
  refine ⟨ev, received, ?_, seq, latency⟩
  refine recordable_of_received received price fits fun c member => ?_
  rw [symbol] at member
  exact (ordinary.plain c member).1

end Run.Ordinary

/-- The messages without an arrival are those sent but for the arrivals. -/
theorem lost_count {sent arrived : List Nat} (nodup : sent.Nodup) (once : arrived.Nodup)
    (part : arrived ⊆ sent) :
    (sent.filter (· ∉ arrived)).length + arrived.length = sent.length := by
  have same : (sent.filter (· ∈ arrived)).length = arrived.length := by
    refine List.Perm.length_eq ((List.perm_ext_iff_of_nodup (nodup.filter _) once).mpr fun i => ?_)
    rw [List.mem_filter, decide_eq_true_iff]
    exact ⟨And.right, fun here => ⟨part here, here⟩⟩
  have split := List.length_eq_length_filter_add (l := sent) fun i => decide (i ∈ arrived)
  have other : (sent.filter fun i => !decide (i ∈ arrived)) = sent.filter (· ∉ arrived) :=
    List.filter_congr fun i _ => (decide_not ..).symm
  rw [other] at split
  omega

/-- What is read of the events is what is read of the arrivals. -/
theorem map_of_received {α : Type} {r : Run} {arrivals : List Arrival} {events : List Event}
    {ofEvent : Event → α} {ofArrival : Arrival → α}
    (received : arrivals.map (Arrival.event r) = events.map some)
    (each : ∀ a ∈ arrivals, ∀ ev, a.event r = some ev → ofEvent ev = ofArrival a) :
    events.map ofEvent = arrivals.map ofArrival := by
  induction arrivals generalizing events with
  | nil => cases events with
    | nil => rfl
    | cons ev events => cases received
  | cons a arrivals ih => cases events with
    | nil => cases received
    | cons ev events =>
      obtain ⟨came, others⟩ := List.cons.inj received
      rw [List.map_cons, List.map_cons, each a List.mem_cons_self ev came,
        ih others fun a' member => each a' (List.mem_cons_of_mem a member)]

end Benchmark

open Benchmark

/-- `float` and `int` of numbers. -/
def Benchmark.numbers : Conversions where
  float := floatOfNumber
  int
    | .num x => .ok (x.num.tdiv x.den)
    | _ => .error .typeError
  float_integer _ := rfl
  int_integer n := by simp

/-- Three messages, of which the first and the last arrive, the last one before the first. -/
def Benchmark.shuffledRun : Run := ⟨bytes "AAPL", 1, 3, fun i => 1000 + i, fun _ => true⟩

def Benchmark.shuffledArrivals : List Benchmark.Arrival :=
  [⟨2, 1010, ⟨(127, 0, 0, 1), 40000⟩⟩, ⟨0, 1012, ⟨(127, 0, 0, 1), 40000⟩⟩]

end EtradePipeline
