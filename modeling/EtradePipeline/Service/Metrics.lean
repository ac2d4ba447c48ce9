import EtradePipeline.Kit.Json.Parser
import EtradePipeline.Service.LatencyStats
import Mathlib.Data.List.DropRight

/-! The two metrics endpoints.  Each has a loop of its own over the lines of the record file, in
which the latency of an event is looked up.  The lookup is inside `try` but for its first test,
whether the event has the key `latency_ms`, which raises an exception for a number, a boolean and
`null`. -/

namespace EtradePipeline

open Kit.Json (Value get?)

/-- A Python string, as the numbers of its characters. -/
abbrev PyStr := List Nat

def pyStr (s : String) : PyStr := s.toList.map Char.toNat

/-- `str.isspace` of a character. -/
def isPySpace (c : Nat) : Bool :=
  (9 ≤ c && c ≤ 13) || (28 ≤ c && c ≤ 32) || (0x2000 ≤ c && c ≤ 0x200a) ||
    c ∈ [0x85, 0xa0, 0x1680, 0x2028, 0x2029, 0x202f, 0x205f, 0x3000]

/-- `s.strip()`. -/
def strip (s : PyStr) : PyStr := (s.dropWhile isPySpace).rdropWhile isPySpace

/-! ### The latency of an event -/

def isStr (key : PyStr) : Value → Bool
  | .str units => units = key
  | _ => false

/-- `key in obj`. -/
def hasKey (key : PyStr) : Value → Except PyError Bool
  | .obj members => .ok (members.any fun m => m.1 = key)
  | .arr items => .ok (items.any (isStr key))
  | .str units => .ok (decide (key <:+: units))
  | .null | .bool _ | .num _ => .error .typeError

/-- `obj[key]`. -/
def subscript (key : PyStr) : Value → Except PyError Value
  | .obj members => (get? key members).elim (.error .keyError) .ok
  | _ => .error .typeError

section Code

variable {α : Type}

/-- What `lat` is after a `try` whose `except` sets it to `None`. -/
def tried (body : Except PyError (Option α)) : Option α :=
  match body with
  | .ok lat => lat
  | .error _ => none

variable [Sub α] (float : Value → Except PyError α)

/-- The latency of a decoded line, as both loops look it up. -/
def eventLatency (obj : Value) : Except PyError (Option α) := do
  if ← hasKey (pyStr "latency_ms") obj then
    return tried do
      let lat ← float (← subscript (pyStr "latency_ms") obj)
      return some lat
  else
    return tried do
      if ← hasKey (pyStr "recv_ts_ms") obj then
        if ← hasKey (pyStr "msg_ts_ms") obj then
          let recv ← float (← subscript (pyStr "recv_ts_ms") obj)
          let msg ← float (← subscript (pyStr "msg_ts_ms") obj)
          return some (recv - msg)
      return none

/-! ### The endpoints -/

variable (loads : PyStr → Option Value)

structure MetricsScan (α : Type) where
  latencies : List α
  parsed : Nat
  skipped : Nat

/-- The loop body of `get_metrics`. -/
def metricsStep (scan : MetricsScan α) (line : PyStr) : Except PyError (MetricsScan α) :=
  let line := strip line
  if line = [] then .ok scan
  else
    match loads line with
    | none => .ok { scan with skipped := scan.skipped + 1 }
    | some obj => do
      match ← eventLatency float obj with
      | none => return { scan with skipped := scan.skipped + 1 }
      | some lat =>
        return { scan with parsed := scan.parsed + 1, latencies := scan.latencies ++ [lat] }

/-- `latencyHist` is what the histogram has observed. -/
structure PrometheusScan (α : Type) where
  latencies : List α
  parsed : Nat
  skipped : Nat
  scanned : Nat
  latencyHist : List α

/-- The loop body of `get_metrics_prometheus`. -/
def prometheusStep (scan : PrometheusScan α) (line : PyStr) : Except PyError (PrometheusScan α) :=
  let line := strip line
  if line = [] then .ok scan
  else
    let scan := { scan with scanned := scan.scanned + 1 }
    match loads line with
    | none => .ok { scan with skipped := scan.skipped + 1 }
    | some obj => do
      match ← eventLatency float obj with
      | none => return { scan with skipped := scan.skipped + 1 }
      | some lat =>
        return { scan with
          parsed := scan.parsed + 1
          latencies := scan.latencies ++ [lat]
          latencyHist := scan.latencyHist ++ [lat] }

/-- What `get_metrics` returns. -/
inductive MetricsReply (α : Type) where
  | noEvents (error : String)
  | noLatencies (error : String) (parsedLines skippedLines : Nat)
  | stats (stats : LatencyStats α) (parsedLines skippedLines : Nat)

/-- What the registry has when `get_metrics_prometheus` prints it. -/
structure Exposition (α : Type) where
  scanned : Nat
  parsed : Nat
  skipped : Nat
  latencyHist : List α
  p50 : Option α
  p95 : Option α
  p99 : Option α

/-- `gauge.set(value)`, of a gauge that has not been set. -/
def setGauge : Option α → Except PyError (Option α)
  | none => .error .typeError
  | some value => .ok (some value)

variable [Add α] [Mul α] [RatCast α] [LE α] [DecidableLE α] (py : Statistics α)

/-- `get_metrics`, of the lines that are read. -/
def getMetrics (rawLines : List PyStr) : Except PyError (MetricsReply α) :=
  if rawLines.isEmpty then .ok (.noEvents "No event found in data/events.jsonl")
  else do
    let scan ← rawLines.foldlM (metricsStep float loads) ⟨[], 0, 0⟩
    if scan.latencies.isEmpty then
      return .noLatencies "no vaid latency values parsed" scan.parsed scan.skipped
    else
      let stats ← computeLatencyStats py scan.latencies
      return .stats stats scan.parsed scan.skipped

/-- `get_metrics_prometheus`, of the lines that are read. -/
def getMetricsPrometheus (rawLines : List PyStr) : Except PyError (Exposition α) := do
  let scan ← rawLines.foldlM (prometheusStep float loads) ⟨[], 0, 0, 0, []⟩
  if scan.latencies.isEmpty then
    return ⟨scan.scanned, scan.parsed, scan.skipped, scan.latencyHist, none, none, none⟩
  else
    let s := py.sorted scan.latencies
    let p50 ← percentile s 50
    let p95 ← percentile s 95
    let p99 ← percentile s 99
    let p50G ← if p50.isSome then setGauge p50 else .ok none
    -- The tests before these two are on the gauges, which are never `None`.
    let p95G ← setGauge p95
    let p99G ← setGauge p99
    return ⟨scan.scanned, scan.parsed, scan.skipped, scan.latencyHist, p50G, p95G, p99G⟩

end Code

/-! ### Lines that raise an exception -/

/-- A number, a boolean or `null`. -/
def IsScalar : Value → Prop
  | .null | .bool _ | .num _ => True
  | .str _ | .arr _ | .obj _ => False

instance : DecidablePred IsScalar
  | .null | .bool _ | .num _ => .isTrue trivial
  | .str _ | .arr _ | .obj _ => .isFalse id

/-- The line is blank, does not decode, or decodes to an object, an array or a string. -/
def Readable (loads : PyStr → Option Value) (line : PyStr) : Prop :=
  strip line ≠ [] → ∀ v, loads (strip line) = some v → ¬ IsScalar v

theorem hasKey_ok {obj : Value} (container : ¬ IsScalar obj) (key : PyStr) :
    ∃ found, hasKey key obj = .ok found := by
  cases obj with
  | null | bool | num => exact absurd trivial container
  | str | arr | obj => exact ⟨_, rfl⟩

theorem hasKey_scalar {obj : Value} (scalar : IsScalar obj) (key : PyStr) :
    hasKey key obj = .error .typeError := by
  cases obj with
  | null | bool | num => rfl
  | str | arr | obj => exact scalar.elim

section Lines

variable {α : Type} [Sub α] {float : Value → Except PyError α} {loads : PyStr → Option Value}

theorem eventLatency_ok {obj : Value} (container : ¬ IsScalar obj) :
    ∃ lat, eventLatency float obj = .ok lat := by
  obtain ⟨found, key⟩ := hasKey_ok container (pyStr "latency_ms")
  cases found with
  | true => exact ⟨_, by rw [eventLatency, key]; rfl⟩
  | false => exact ⟨_, by rw [eventLatency, key]; rfl⟩

theorem eventLatency_scalar {obj : Value} (scalar : IsScalar obj) :
    eventLatency float obj = .error .typeError := by
  rw [eventLatency, hasKey_scalar scalar]
  rfl

/-- The two scans agree, and each line that is not blank is counted once. -/
structure ScansAgree (m : MetricsScan α) (p : PrometheusScan α) : Prop where
  latencies : p.latencies = m.latencies
  parsed : p.parsed = m.parsed
  skipped : p.skipped = m.skipped
  hist : p.latencyHist = p.latencies
  counted : p.parsed = p.latencies.length
  total : p.scanned = p.parsed + p.skipped

theorem steps_agree {m : MetricsScan α} {p : PrometheusScan α} (agree : ScansAgree m p)
    {line : PyStr} (readable : Readable loads line) :
    ∃ m' p', metricsStep float loads m line = .ok m' ∧ prometheusStep float loads p line = .ok p' ∧
      ScansAgree m' p' ∧ p'.scanned = p.scanned + if strip line = [] then 0 else 1 := by
  by_cases blank : strip line = []
  · exact ⟨m, p, by simp only [metricsStep, if_pos blank],
      by simp only [prometheusStep, if_pos blank], agree, by rw [if_pos blank, Nat.add_zero]⟩
  have total := agree.total
  simp only [metricsStep, prometheusStep, if_neg blank]
  cases decoded : loads (strip line) with
  | none => exact ⟨_, _, rfl, rfl, ⟨agree.latencies, agree.parsed, congrArg (· + 1) agree.skipped,
      agree.hist, agree.counted, by simp only; omega⟩, rfl⟩
  | some obj =>
    obtain ⟨lat, found⟩ := @eventLatency_ok α _ float obj (readable blank obj decoded)
    simp only [found]
    cases lat with
    | none => exact ⟨_, _, rfl, rfl, ⟨agree.latencies, agree.parsed, congrArg (· + 1) agree.skipped,
        agree.hist, agree.counted, by simp only; omega⟩, rfl⟩
    | some lat =>
      exact ⟨_, _, rfl, rfl, ⟨congrArg (· ++ [lat]) agree.latencies, congrArg (· + 1) agree.parsed,
        agree.skipped, congrArg (· ++ [lat]) agree.hist, by simp [agree.counted],
        by simp only; omega⟩, rfl⟩

theorem scans_agree {m : MetricsScan α} {p : PrometheusScan α} (agree : ScansAgree m p)
    {rawLines : List PyStr} (readable : ∀ line ∈ rawLines, Readable loads line) :
    ∃ m' p', rawLines.foldlM (metricsStep float loads) m = .ok m' ∧
      rawLines.foldlM (prometheusStep float loads) p = .ok p' ∧ ScansAgree m' p' ∧
      p'.scanned = p.scanned + (rawLines.filter fun line => strip line ≠ []).length := by
  induction rawLines generalizing m p with
  | nil => exact ⟨m, p, rfl, rfl, agree, rfl⟩
  | cons line rawLines ih =>
    obtain ⟨first, others⟩ := List.forall_mem_cons.mp readable
    obtain ⟨m₁, p₁, metrics, prometheus, agree₁, scanned₁⟩ :=
      @steps_agree _ _ float _ _ _ agree _ first
    obtain ⟨m₂, p₂, metrics₂, prometheus₂, agree₂, scanned₂⟩ := ih agree₁ others
    refine ⟨m₂, p₂, ?_, ?_, agree₂, ?_⟩
    · rw [List.foldlM_cons, metrics]
      exact metrics₂
    · rw [List.foldlM_cons, prometheus]
      exact prometheus₂
    · rw [scanned₂, scanned₁, List.filter_cons]
      by_cases blank : strip line = [] <;> simp [blank, Nat.add_assoc, Nat.add_comm 1]

theorem metricsStep_raises {m : MetricsScan α} {line : PyStr} (unreadable : ¬ Readable loads line) :
    metricsStep float loads m line = .error .typeError := by
  simp only [Readable, Classical.not_imp, not_forall, not_not] at unreadable
  obtain ⟨filled, v, decoded, scalar⟩ := unreadable
  simp only [metricsStep, if_neg filled, decoded, eventLatency_scalar scalar]
  rfl

theorem metrics_readable {m m' : MetricsScan α} {rawLines : List PyStr}
    (survives : rawLines.foldlM (metricsStep float loads) m = .ok m') :
    ∀ line ∈ rawLines, Readable loads line := by
  induction rawLines generalizing m with
  | nil => exact List.forall_mem_nil _
  | cons line rawLines ih =>
    rw [List.foldlM_cons] at survives
    by_cases readable : Readable loads line
    · cases step : metricsStep float loads m line with
      | error e =>
        rw [step] at survives
        cases survives
      | ok next =>
        rw [step] at survives
        exact List.forall_mem_cons.mpr ⟨readable, ih survives⟩
    · rw [metricsStep_raises readable] at survives
      cases survives

end Lines

/-! ### The endpoints -/

def MetricsReply.lineCounts {α : Type} : MetricsReply α → Nat × Nat
  | .noEvents _ => (0, 0)
  | .noLatencies _ parsed skipped | .stats _ parsed skipped => (parsed, skipped)

section Endpoints

variable {α : Type} [Add α] [Sub α] [Mul α] [RatCast α] [LE α] [DecidableLE α]

/-- Both endpoints return, count every line that is not blank once, and have the same latencies and
percentiles. -/
def EndpointsAgree (py : Statistics α) (float : Value → Except PyError α)
    (loads : PyStr → Option Value) (rawLines : List PyStr) : Prop :=
  ∃ scan reply e, rawLines.foldlM (metricsStep float loads) ⟨[], 0, 0⟩ = .ok scan ∧
    getMetrics float loads py rawLines = .ok reply ∧
      getMetricsPrometheus float loads py rawLines = .ok e ∧
    e.scanned = (rawLines.filter fun line => strip line ≠ []).length ∧
      e.scanned = e.parsed + e.skipped ∧
    reply.lineCounts = (e.parsed, e.skipped) ∧ e.parsed = e.latencyHist.length ∧
    scan.latencies.Perm e.latencyHist ∧
    (scan.latencies ≠ [] → ∃ r, reply = .stats (.report r) e.parsed e.skipped ∧
      r.median.isSome = true ∧ r.median = e.p50 ∧ r.p95 = e.p95 ∧ r.p99 = e.p99)

theorem ok_bind {β γ : Type} (x : β) (f : β → Except PyError γ) : (Except.ok x >>= f) = f x := rfl

theorem getMetrics_eq {float : Value → Except PyError α} {loads : PyStr → Option Value}
    (py : Statistics α) {rawLines : List PyStr} {scan : MetricsScan α}
    (survives : rawLines.foldlM (metricsStep float loads) ⟨[], 0, 0⟩ = .ok scan)
    (some_ : scan.latencies ≠ []) :
    ∃ r, getMetrics float loads py rawLines = .ok (.stats (.report r) scan.parsed scan.skipped) ∧
      r.median = atRank linear (py.sorted scan.latencies) 50 ∧
      r.p95 = atRank linear (py.sorted scan.latencies) 95 ∧
      r.p99 = atRank linear (py.sorted scan.latencies) 99 := by
  obtain ⟨r, computed, -, -, median, p95, p99, -⟩ := computeLatencyStats_eq py some_
  have lines : rawLines ≠ [] := by
    rintro rfl
    cases survives
    exact some_ rfl
  refine ⟨r, ?_, median, p95, p99⟩
  simp only [getMetrics, List.isEmpty_iff, if_neg lines, survives, ok_bind, if_neg some_, computed]
  rfl

theorem getMetrics_none {float : Value → Except PyError α} {loads : PyStr → Option Value}
    (py : Statistics α) {rawLines : List PyStr} {scan : MetricsScan α}
    (survives : rawLines.foldlM (metricsStep float loads) ⟨[], 0, 0⟩ = .ok scan)
    (none : scan.latencies = []) :
    ∃ reply, getMetrics float loads py rawLines = .ok reply ∧
      reply.lineCounts = (scan.parsed, scan.skipped) := by
  by_cases lines : rawLines = []
  · subst lines
    cases survives
    exact ⟨_, rfl, rfl⟩
  · simp only [getMetrics, List.isEmpty_iff, if_neg lines, survives, ok_bind, if_pos none]
    exact ⟨_, rfl, rfl⟩

omit [DecidableLE α] in
theorem getMetricsPrometheus_none {float : Value → Except PyError α} {loads : PyStr → Option Value}
    (py : Statistics α) {rawLines : List PyStr} {scan : PrometheusScan α}
    (survives : rawLines.foldlM (prometheusStep float loads) ⟨[], 0, 0, 0, []⟩ = .ok scan)
    (empty : scan.latencies = []) :
    getMetricsPrometheus float loads py rawLines =
      .ok ⟨scan.scanned, scan.parsed, scan.skipped, scan.latencyHist, none, none, none⟩ := by
  simp only [getMetricsPrometheus, survives, ok_bind, List.isEmpty_iff, if_pos empty]
  rfl

omit [DecidableLE α] in
theorem getMetricsPrometheus_eq {float : Value → Except PyError α} {loads : PyStr → Option Value}
    (py : Statistics α) {rawLines : List PyStr} {scan : PrometheusScan α}
    (survives : rawLines.foldlM (prometheusStep float loads) ⟨[], 0, 0, 0, []⟩ = .ok scan)
    (some_ : scan.latencies ≠ []) :
    getMetricsPrometheus float loads py rawLines =
      .ok ⟨scan.scanned, scan.parsed, scan.skipped, scan.latencyHist,
        atRank linear (py.sorted scan.latencies) 50, atRank linear (py.sorted scan.latencies) 95,
        atRank linear (py.sorted scan.latencies) 99⟩ := by
  have set : ∀ p, setGauge (atRank linear (py.sorted scan.latencies) p) =
      .ok (atRank linear (py.sorted scan.latencies) p) := by
    intro p
    obtain ⟨x, value⟩ := Option.isSome_iff_exists.mp
      (atRank_isSome linear (py.sorted_ne_nil some_) p)
    rw [value, setGauge]
  have value := atRank_isSome linear (py.sorted_ne_nil some_) 50
  simp only [getMetricsPrometheus, survives, percentile_eq, ok_bind, List.isEmpty_iff,
    if_neg some_, value, if_true, set]
  rfl

/-- The endpoints agree exactly when no line is a bare number, boolean or `null`. -/
theorem endpoints_agree_iff (py : Statistics α) (float : Value → Except PyError α)
    (loads : PyStr → Option Value) (rawLines : List PyStr) :
    EndpointsAgree py float loads rawLines ↔
      ∀ line ∈ rawLines, strip line ≠ [] → ∀ v, loads (strip line) = some v → ¬ IsScalar v := by
  constructor
  · rintro ⟨scan, -, -, survives, -⟩
    exact metrics_readable survives
  · intro readable
    have start : ScansAgree (⟨[], 0, 0⟩ : MetricsScan α) ⟨[], 0, 0, 0, []⟩ :=
      ⟨rfl, rfl, rfl, rfl, rfl, rfl⟩
    obtain ⟨m, p, metrics, prometheus, agree, scanned⟩ :=
      @scans_agree _ _ float _ _ _ start _ readable
    have hist : m.latencies.Perm p.latencyHist := by rw [agree.hist, agree.latencies]
    have counted : p.parsed = p.latencyHist.length := by rw [agree.hist, agree.counted]
    have scanned : p.scanned = (rawLines.filter fun line => strip line ≠ []).length := by
      rw [scanned, Nat.zero_add]
    by_cases none : m.latencies = []
    · obtain ⟨reply, replied, counts⟩ := getMetrics_none py metrics none
      have exposed := getMetricsPrometheus_none py prometheus (agree.latencies.trans none)
      refine ⟨m, reply, _, metrics, replied, exposed, scanned, agree.total, ?_, counted, hist,
        fun some_ => absurd none some_⟩
      rw [counts, agree.parsed, agree.skipped]
    · obtain ⟨r, replied, median, p95, p99⟩ := getMetrics_eq py metrics none
      have exposed := getMetricsPrometheus_eq py prometheus (agree.latencies ▸ none)
      refine ⟨m, _, _, metrics, replied, exposed, scanned, agree.total, ?_, counted, hist, fun _ =>
        ⟨r, ?_, ?_, ?_, ?_, ?_⟩⟩
      · rw [MetricsReply.lineCounts, agree.parsed, agree.skipped]
      · rw [agree.parsed, agree.skipped]
      · rw [median]
        exact atRank_isSome linear (py.sorted_ne_nil none) 50
      · rw [median, agree.latencies]
      · rw [p95, agree.latencies]
      · rw [p99, agree.latencies]

end Endpoints

/-- `json.loads` of an ASCII line, and `float` of a number. -/
def asciiLoads (line : PyStr) : Option Value := Kit.Json.parse (line.map UInt8.ofNat)

def floatOfNumber : Value → Except PyError ℚ
  | .num x => .ok x
  | _ => .error .typeError

/-- A line that is a bare number makes both endpoints raise an exception. -/
theorem bare_number_raises :
    getMetrics floatOfNumber asciiLoads exactStatistics [pyStr "5"] = .error .typeError ∧
      getMetricsPrometheus floatOfNumber asciiLoads exactStatistics [pyStr "5"] =
        .error .typeError ∧
      ¬ EndpointsAgree exactStatistics floatOfNumber asciiLoads [pyStr "5"] := by
  have metrics : getMetrics floatOfNumber asciiLoads exactStatistics [pyStr "5"] =
      .error .typeError := by
    rfl
  refine ⟨metrics, by rfl, ?_⟩
  rintro ⟨_, _, _, _, returned, _⟩
  rw [metrics] at returned
  cases returned

end EtradePipeline
