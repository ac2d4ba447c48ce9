import EtradePipeline.Kit.LengthFramed
import EtradePipeline.Kit.TornLog
import EtradePipeline.Queue.SpscQueue
import EtradePipeline.Receiver.Printed

/-! The page of the metrics server: the text that it makes of the values of the metrics, its
response, and what a scraper reads in them. -/

namespace EtradePipeline

open Kit.Search (indexOf behind)
open Kit.Split (filled)
open Kit.TornLog (framed)

/-! ### The page -/

/-- What is loaded for a page.  The size of the queue takes two loads. -/
inductive Gauge where
  | processed
  | dropped
  | batches
  | writeErrors
  | lastLatency
  | head
  | tail
  | accepted
  | rejected
  | fills
  | volume
  | canceled
  | openOrders
  deriving DecidableEq

/-- The order of the loads. -/
def Gauge.order : List Gauge :=
  [.processed, .dropped, .batches, .writeErrors, .lastLatency, .head, .tail, .accepted,
    .rejected, .fills, .volume, .canceled, .openOrders]

/-- A metric, with its `HELP` and `TYPE` lines, which have its name, and its sample. -/
structure Family where
  name : Bytes
  help : Bytes
  kind : Bytes
  sample : Bytes
  value : Nat

def Family.lines (f : Family) : List Bytes :=
  [bytes "# HELP " ++ f.name ++ bytes " " ++ f.help,
    bytes "# TYPE " ++ f.name ++ bytes " " ++ f.kind,
    f.sample ++ bytes " " ++ printNat f.value]

def Family.counter (name help : String) (value : Nat) : Family :=
  ⟨bytes name, bytes help, bytes "counter", bytes name, value⟩

def Family.gauge (name help : String) (value : Nat) : Family :=
  ⟨bytes name, bytes help, bytes "gauge", bytes name, value⟩

/-- `approx_size` of the two loads. -/
def queueSize (capacity : UInt64) (loaded : Gauge → Int) : UInt64 :=
  let h := UInt64.ofNat (loaded .head).toNat
  let t := UInt64.ofNat (loaded .tail).toNat
  if h ≤ t then t - h else capacity - (h - t)

def families (capacity : UInt64) (loaded : Gauge → Int) : List Family :=
  [.counter "udp_receiver_processed_events_total" "number of processed events"
    (loaded .processed).toNat,
    .counter "udp_receiver_dropped_events_total" "Number of events dropped due to queue full"
      (loaded .dropped).toNat,
    -- the sample lacks the suffix
    { Family.counter "udp_receiver_batches_received_total" "Number of recvmmsg batches received"
        (loaded .batches).toNat with sample := bytes "udp_receiver_batches_received" },
    .counter "udp_receiver_write_errors_total" "Number of write errors whe persisting events"
      (loaded .writeErrors).toNat,
    .gauge "udp_receiver_last_latency_ms" "last observed latency(ms)"
      (if 0 ≤ loaded .lastLatency then (loaded .lastLatency).toNat else 0),
    .gauge "udp_receiver_queue_size" "Approximate queue occupany" (queueSize capacity loaded).toNat,
    .counter "orders_accepted_total" "Number of accepted orders" (loaded .accepted).toNat,
    .counter "orders_rejected_total" "Number of rejected orders" (loaded .rejected).toNat,
    .counter "orders_fills_total" "Number of fill events produced" (loaded .fills).toNat,
    .counter "orders_filled_volume_total" "Total quantity filled" (loaded .volume).toNat,
    .counter "orders_canceled_total" "Number of orders canceled" (loaded .canceled).toNat,
    .gauge "orders_open" "Gauge of currently open orders" (loaded .openOrders).toNat]

/-- `body`. -/
def metricsBody (fs : List Family) : Bytes := framed (byte '\n') (fs.flatMap Family.lines)

def headLines (body : Bytes) : List Bytes :=
  [bytes "HTTP/1.1 200 OK", bytes "Content-Type: text/plain; version=0.0.4; charset=utf-8",
    bytes "Content-Length: " ++ printNat body.length, bytes "Connection: Close"]

/-- `resp`. -/
def metricsResponse (body : Bytes) : Bytes :=
  (bytes "\r\n").intercalate (headLines body) ++ bytes "\r\n\r\n" ++ body

/-! ### The scraper -/

/-- A decimal number at the start of a text, and what follows it. -/
def readNat (s : Bytes) : Option (Nat × Bytes) :=
  match scanDigits 10 s with
  | ([], _) => none
  | (d :: ds, rest) => some (ofDigits 10 (d :: ds), rest)

/-- The length that a head announces. -/
def contentLength (head : Bytes) : Option Nat :=
  (behind (bytes "\r\nContent-Length: ") head).bind fun s => (readNat s).map Prod.fst

/-- The name and the value of a line that is no comment. -/
def readSample (line : Bytes) : Option (Bytes × Nat) :=
  if line.head? = some (byte '#') then none
  else (indexOf [byte ' '] line).bind fun i =>
    match readNat (line.drop (i + 1)) with
    | some (value, []) => some (line.take i, value)
    | _ => none

def readSamples (body : Bytes) : List (Bytes × Nat) :=
  (filled (byte '\n') body).filterMap readSample

/-- What a scraper makes of the bytes of a connection. -/
def readScrape (s : Bytes) : Option (List (Bytes × Nat)) :=
  (Kit.LengthFramed.read (bytes "\r\n\r\n") contentLength s).map readSamples

/-! ### What is read -/

theorem readNat_printNat (n : Nat) {rest : Bytes} (stops : NoDigit rest) :
    readNat (printNat n ++ rest) = some (n, rest) := by
  obtain ⟨d, ds, digits⟩ := List.exists_cons_of_ne_nil (natDigits_ne_nil n)
  have value := digitsValue_natDigits n
  rw [digits, digitsValue, List.map_cons] at value
  rw [printNat_eq, digits, readNat, scanDigits_digitText _ stops, List.map_cons]
  simp only [value]

theorem notMem_printNat {c : UInt8} (other : c ∉ numeralBytes) (n : Nat) : c ∉ printNat n := by
  rw [printNat_eq]
  exact fun member => other (digitText_subset _ member)

section Response

variable (body : Bytes)

/-- The head. -/
def head : Bytes := (bytes "\r\n").intercalate (headLines body)

theorem head_blank (rest : Bytes) :
    indexOf (bytes "\r\n\r\n") (head body ++ bytes "\r\n\r\n" ++ rest) =
      some (head body).length := by
  refine Kit.LengthFramed.indexOf_blank (by decide) (headLines body) ?_ ?_ rest
  · simp [headLines, bytes]
  · have digits := notMem_printNat (c := byte '\r') (by decide) body.length
    simp only [headLines, List.forall_mem_cons, List.mem_append, not_or]
    exact ⟨by decide, by decide, ⟨by decide, digits⟩, by decide, List.forall_mem_nil _⟩

theorem contentLength_head : contentLength (head body) = some body.length := by
  let before := bytes "HTTP/1.1 200 OK\r\nContent-Type: text/plain; version=0.0.4; charset=utf-8"
  have text : head body = before ++ bytes "\r\nContent-Length: " ++
      (printNat body.length ++ bytes "\r\nConnection: Close") := by
    simp [head, headLines, before, bytes, List.intercalate_cons_cons]
  have first : indexOf (bytes "\r\nContent-Length: ") (before ++ bytes "\r\nContent-Length: ") =
      some before.length := by
    decide +kernel
  rw [contentLength, text, Kit.LengthFramed.behind_append first, Option.bind_some,
    readNat_printNat body.length (by unfold NoDigit; decide +kernel), Option.map_some]

/-- The whole response gives its body, and no part of it gives one. -/
theorem read_response :
    Kit.LengthFramed.read (bytes "\r\n\r\n") contentLength (metricsResponse body) = some body ∧
      ∀ s, s <+: metricsResponse body → s ≠ metricsResponse body →
        Kit.LengthFramed.read (bytes "\r\n\r\n") contentLength s = none := by
  have first : indexOf (bytes "\r\n\r\n") (head body ++ bytes "\r\n\r\n") =
      some (head body).length := by
    rw [← List.append_nil (head body ++ _)]
    exact head_blank body []
  have whole : head body ++ bytes "\r\n\r\n" ++ body ++ [] = metricsResponse body :=
    List.append_nil _
  constructor
  · rw [← whole]
    exact Kit.LengthFramed.read_message first (contentLength_head body) []
  · intro s part other
    refine Kit.LengthFramed.read_part first (contentLength_head body) part ?_
    exact lt_of_le_of_ne part.length_le fun same => other (part.eq_of_length same)

end Response

/-- The texts of a metric fit their lines, and its sample is no comment. -/
structure Family.Plain (f : Family) : Prop where
  lines : ∀ s ∈ [f.name, f.help, f.kind, f.sample], byte '\n' ∉ s
  sample : byte ' ' ∉ f.sample
  named : f.sample.head? ≠ some (byte '#') ∧ f.sample ≠ []

theorem readSample_lines {f : Family} (plain : f.Plain) :
    f.lines.filterMap readSample = [(f.sample, f.value)] := by
  have comment : ∀ s, readSample (byte '#' :: s) = none := fun s => if_pos rfl
  have value : readNat (printNat f.value) = some (f.value, []) := by
    rw [← List.append_nil (printNat f.value)]
    exact readNat_printNat f.value noDigit_nil
  have sampled : readSample (f.sample ++ bytes " " ++ printNat f.value) =
      some (f.sample, f.value) := by
    obtain ⟨c, cs, begins⟩ := List.exists_cons_of_ne_nil plain.named.2
    have other : (f.sample ++ bytes " " ++ printNat f.value).head? ≠ some (byte '#') := by
      have own := plain.named.1
      rw [begins] at own ⊢
      exact own
    have cut : (f.sample ++ bytes " " ++ printNat f.value).drop (f.sample.length + 1) =
        printNat f.value :=
      List.drop_left' (by simp [bytes])
    have first : indexOf [byte ' '] (f.sample ++ bytes " " ++ printNat f.value) =
        some f.sample.length := by
      rw [List.append_assoc]
      exact Kit.Search.indexOf_singleton plain.sample _
    rw [readSample, if_neg other, first, Option.bind_some, cut, value, List.append_assoc,
      List.take_left]
  have help : readSample (bytes "# HELP " ++ f.name ++ bytes " " ++ f.help) = none := comment _
  have kind : readSample (bytes "# TYPE " ++ f.name ++ bytes " " ++ f.kind) = none := comment _
  rw [Family.lines, List.filterMap_cons_none help, List.filterMap_cons_none kind,
    List.filterMap_cons_some sampled, List.filterMap_nil]

theorem Family.Plain.line_free {f : Family} (plain : f.Plain) :
    ∀ line ∈ f.lines, byte '\n' ∉ line ∧ line ≠ [] := by
  obtain ⟨name, help, kind, sample, -⟩ : byte '\n' ∉ f.name ∧ byte '\n' ∉ f.help ∧
      byte '\n' ∉ f.kind ∧ byte '\n' ∉ f.sample ∧ True := by simpa using plain.lines
  have digits := notMem_printNat (c := byte '\n') (by decide) f.value
  simp only [Family.lines, List.forall_mem_cons, List.mem_append, not_or]
  exact ⟨⟨⟨⟨⟨by decide, name⟩, by decide⟩, help⟩, by simp [bytes]⟩,
    ⟨⟨⟨⟨by decide, name⟩, by decide⟩, kind⟩, by simp [bytes]⟩,
    ⟨⟨⟨sample, by decide⟩, digits⟩, by simp [bytes]⟩, List.forall_mem_nil _⟩

theorem readSamples_body {fs : List Family} (plain : ∀ f ∈ fs, f.Plain) :
    readSamples (metricsBody fs) = fs.map fun f => (f.sample, f.value) := by
  have free : ∀ line ∈ fs.flatMap Family.lines, byte '\n' ∉ line ∧ line ≠ [] :=
    fun line member => by
    obtain ⟨f, listed, inside⟩ := List.mem_flatMap.mp member
    exact (plain f listed).line_free line inside
  have each : ∀ f ∈ fs, f.lines.filterMap readSample = [(f.sample, f.value)] :=
    fun f member => readSample_lines (plain f member)
  rw [readSamples, metricsBody,
    Kit.TornLog.Log.filled_framed (fun line member => (free line member).1)
    fun line member => (free line member).2, List.filterMap_flatMap, List.flatMap_congr each,
    ← List.map_eq_flatMap]

theorem plain_families (capacity : UInt64) (loaded : Gauge → Int) :
    ∀ f ∈ families capacity loaded, f.Plain := by
  have texts : (families capacity loaded).map (fun f => { f with value := 0 }) =
      (families 0 fun _ => 0).map fun f => { f with value := 0 } := by
    simp [families, Family.counter, Family.gauge]
  have plain : ∀ f ∈ (families 0 fun _ => 0),
    (∀ s ∈ [f.name, f.help, f.kind, f.sample], byte '\n' ∉ s) ∧
      byte ' ' ∉ f.sample ∧ f.sample.head? ≠ some (byte '#') ∧ f.sample ≠ [] := by
    decide +kernel
  intro f member
  have same := texts ▸ List.mem_map_of_mem (f := fun f : Family => { f with value := 0 }) member
  obtain ⟨f', listed, alike⟩ := List.mem_map.mp same
  obtain ⟨lines, sample, named⟩ := plain f' listed
  rw [congrArg Family.name alike, congrArg Family.help alike, congrArg Family.kind alike,
    congrArg Family.sample alike] at lines
  rw [congrArg Family.sample alike] at sample named
  exact ⟨lines, sample, named⟩

/-- A scraper that has the whole page reads the values that the server has loaded, and one that has
less reads nothing. -/
theorem readScrape_page (capacity : UInt64) (loaded : Gauge → Int) {s : Bytes}
    (part : s <+: metricsResponse (metricsBody (families capacity loaded))) :
    readScrape s = if s = metricsResponse (metricsBody (families capacity loaded))
      then some ((families capacity loaded).map fun f => (f.sample, f.value)) else none := by
  obtain ⟨whole, less⟩ := read_response (metricsBody (families capacity loaded))
  split_ifs with same
  · rw [readScrape, same, whole, Option.map_some, readSamples_body (plain_families capacity loaded)]
  · rw [readScrape, less s part same, Option.map_none]

end EtradePipeline
