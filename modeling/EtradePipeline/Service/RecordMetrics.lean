import EtradePipeline.Service.RecordFile

/-! The metrics endpoints over the record file.  Both report the latencies of the events that can be
read in the last lines, and skip a line for each group of which the receiver has not written
everything, at most. -/

namespace EtradePipeline

open Kit.Json (Value)
open Kit.Split (filled)

section Scan

variable {α : Type} [Sub α] {float : Value → Except PyError α} {loads : PyStr → Option Value}
  {L : Value → α}

/-- The scan of lines that are not blank and whose objects have a latency. -/
theorem metrics_scan {lines : List PyStr} (some_ : ∀ line ∈ lines, strip line ≠ [])
    (timed : ∀ line ∈ lines, ∀ v, lineObject loads line = some v →
      eventLatency float v = .ok (some (L v)))
    (scan : MetricsScan α) :
    lines.foldlM (metricsStep float loads) scan =
      .ok ⟨scan.latencies ++ (lines.filterMap (lineObject loads)).map L,
        scan.parsed + (lines.filterMap (lineObject loads)).length,
        scan.skipped + (lines.length - (lines.filterMap (lineObject loads)).length)⟩ := by
  induction lines generalizing scan with
  | nil => simp [List.foldlM_nil, pure, Except.pure]
  | cons line lines ih =>
    obtain ⟨first, others⟩ := List.forall_mem_cons.mp some_
    obtain ⟨own, timed⟩ := List.forall_mem_cons.mp timed
    have few := List.length_filterMap_le (lineObject loads) lines
    have object : lineObject loads line = loads (strip line) := if_neg first
    rw [List.foldlM_cons]
    cases decoded : loads (strip line) with
    | none =>
      have step : metricsStep float loads scan line =
          .ok { scan with skipped := scan.skipped + 1 } := by
        simp only [metricsStep, if_neg first, decoded]
      rw [step, ok_bind, ih others timed, List.filterMap_cons_none (object.trans decoded),
        List.length_cons]
      simp only [Except.ok.injEq, MetricsScan.mk.injEq, true_and]
      omega
    | some v =>
      have latency := own v (object.trans decoded)
      have step : metricsStep float loads scan line = .ok { scan with
          parsed := scan.parsed + 1
          latencies := scan.latencies ++ [L v] } := by
        simp only [metricsStep, if_neg first, decoded, latency]
        rfl
      rw [step, ok_bind, ih others timed, List.filterMap_cons_some (object.trans decoded),
        List.length_cons, List.length_cons, List.map_cons, List.append_assoc, List.singleton_append,
          Nat.add_sub_add_right]
      simp only [Except.ok.injEq, MetricsScan.mk.injEq, true_and, and_true]
      omega

/-- The latency of an event's object. -/
theorem eventLatency_object {lat : Int → α} (integers : ∀ n : Int, float (.num n) = .ok (lat n))
    (ev : Event) :
    eventLatency float ev.object = .ok (some (lat ev.latencyMs)) := by
  have key : hasKey (pyStr "latency_ms") ev.object = .ok true := by rfl
  have value : subscript (pyStr "latency_ms") ev.object = .ok (.num ev.latencyMs) := by rfl
  rw [eventLatency, key, value]
  simp only [ok_bind, integers]
  rfl

/-- The latency of a decoded line, where it has one. -/
def latencyOf (float : Value → Except PyError α) (default : α) (v : Value) : α :=
  (eventLatency float v).toOption.join.getD default

/-- What both endpoints make of the objects that their lines have. -/
theorem endpoints_of_scan [Add α] [Mul α] [RatCast α] [LE α] [DecidableLE α] (py : Statistics α)
    {rawLines : List PyStr} {scan : MetricsScan α} {p : PrometheusScan α}
    (metrics : rawLines.foldlM (metricsStep float loads) ⟨[], 0, 0⟩ = .ok scan)
    (prometheus : rawLines.foldlM (prometheusStep float loads) ⟨[], 0, 0, 0, []⟩ = .ok p)
    (agree : ScansAgree scan p) :
    ∃ reply e, getMetrics float loads py rawLines = .ok reply ∧
      getMetricsPrometheus float loads py rawLines = .ok e ∧
      reply.lineCounts = (scan.parsed, scan.skipped) ∧ e.scanned = p.scanned ∧
      e.parsed = scan.parsed ∧ e.skipped = scan.skipped ∧ e.latencyHist = scan.latencies := by
  have hist := agree.hist.trans agree.latencies
  by_cases none : scan.latencies = []
  · obtain ⟨reply, replied, counts⟩ := getMetrics_none py metrics none
    exact ⟨reply, _, replied, getMetricsPrometheus_none py prometheus (agree.latencies.trans none),
      counts, rfl, agree.parsed, agree.skipped, hist⟩
  · obtain ⟨r, replied, -⟩ := getMetrics_eq py metrics none
    exact ⟨_, _, replied, getMetricsPrometheus_eq py prometheus (agree.latencies ▸ none), rfl, rfl,
      agree.parsed, agree.skipped, hist⟩

end Scan

/-- Both endpoints return, whatever groups of recordable events the receiver has written and
wherever a call of `writev_all` has stopped.  They have the latencies of the same events as
`get_events`, and skip the other lines, which are no more than the groups that have stopped. -/
theorem metrics_of_events_file {α : Type} [Add α] [Sub α] [Mul α] [RatCast α] [LE α] [DecidableLE α]
    (py : Statistics α) (float : Value → Except PyError α) (lat : Int → α)
    (integers : ∀ n : Int, float (.num n) = .ok (lat n)) (decode : Bytes → PyStr)
    (loads : PyStr → Option Value) (text : ReadsAscii decode loads) (groups : List RecordGroup)
    (recordable : ∀ ev ∈ groupEvents groups, ev.Recordable) (content : Bytes)
    (file : eventsFile groups = some content) (tail : Int) (positive : 1 ≤ tail) :
    ∃ (events : List Event) (reply : MetricsReply α) (e : Exposition α),
      events.Sublist (groupEvents groups) ∧
      getEvents decode loads (some content) tail = events.map Event.object ∧
      getMetrics float loads py (readLastLines decode (some content) tail) = .ok reply ∧
      getMetricsPrometheus float loads py (readLastLines decode (some content) tail) = .ok e ∧
      e.latencyHist = events.map (fun ev => lat ev.latencyMs) ∧ e.parsed = events.length ∧
      e.scanned = e.parsed + e.skipped ∧ reply.lineCounts = (e.parsed, e.skipped) ∧
      e.skipped ≤ groups.countP RecordGroup.stopped ∧
      min tail.toNat (content.count (byte '\n')) ≤ e.scanned := by
  obtain ⟨served, order, read, lines, missed, some_⟩ := lines_of_eventsFile text recordable file
  obtain ⟨n, few, last, shown, enough⟩ := lastLines_read read lines tail
  have part : (lastLines content tail).Sublist (filled (byte '\n') content) := by
    unfold lastLines
    split_ifs
    · exact List.drop_sublist _ _
    · exact List.nil_sublist _
  have within := part.length_le
  have raw := readLastLines_lastLines decode content positive
  have objects : (readLastLines decode (some content) tail).filterMap (lineObject loads) =
      (served.rtake n).map Event.object := by
    rw [raw, List.filterMap_map, List.rtake, List.map_drop]
    rw [List.rtake, List.length_map] at last
    exact last
  have filled_ : ∀ line ∈ readLastLines decode (some content) tail, strip line ≠ [] := by
    rw [raw]
    intro line member
    obtain ⟨s, hs, rfl⟩ := List.mem_map.mp member
    exact some_ s (part.subset hs)
  have known : ∀ line ∈ readLastLines decode (some content) tail,
      ∀ v, lineObject loads line = some v → ∃ ev ∈ served, v = ev.object := by
    intro line member v object
    have listed : v ∈ (served.rtake n).map Event.object :=
      objects ▸ List.mem_filterMap.mpr ⟨line, member, object⟩
    obtain ⟨ev, he, rfl⟩ := List.mem_map.mp listed
    exact ⟨ev, List.mem_of_mem_drop he, rfl⟩
  have latency : ∀ ev : Event, latencyOf float (lat 0) ev.object = lat ev.latencyMs := fun ev => by
    rw [latencyOf, eventLatency_object integers]
    rfl
  have metrics :=
    @metrics_scan _ _ _ _ (latencyOf float (lat 0)) _ filled_ (fun line member v object => by
    obtain ⟨ev, -, rfl⟩ := known line member v object
    rw [latency, eventLatency_object integers]) ⟨[], 0, 0⟩
  have readable : ∀ line ∈ readLastLines decode (some content) tail, Readable loads line := by
    intro line member some_ v decoded
    obtain ⟨ev, -, rfl⟩ := known line member v ((if_neg some_).trans decoded)
    exact id
  obtain ⟨m, p, metrics', prometheus, agree, scanned⟩ :=
    scans_agree
      (⟨rfl, rfl, rfl, rfl, rfl, rfl⟩ : ScansAgree (⟨[], 0, 0⟩ : MetricsScan α) ⟨[], 0, 0, 0, []⟩)
      readable
  obtain rfl := Except.ok.inj (metrics'.symm.trans metrics)
  obtain ⟨reply, e, replied, exposed, counts, total, parsed, skipped, hist⟩ :=
    endpoints_of_scan py metrics prometheus agree
  have total' := agree.total
  rw [agree.parsed, agree.skipped, ← total, ← parsed, ← skipped] at total'
  have lengths : (readLastLines decode (some content) tail).length =
      (lastLines content tail).length := by
    rw [raw, List.length_map]
  have kept : (served.rtake n).length ≤ (lastLines content tail).length := by
    rw [← lengths, ← @List.length_map _ _ (served.rtake n) Event.object, ← objects]
    exact List.length_filterMap_le _ _
  have all : n ≤ (served.rtake n).length ∨ served.length = (served.rtake n).length := by
    rw [List.rtake, List.length_drop]
    omega
  rw [objects, lengths] at parsed skipped hist
  rw [List.length_map] at enough
  simp only [List.length_map, Nat.zero_add, List.nil_append, List.map_map] at parsed skipped hist
  refine ⟨served.rtake n, reply, e, (List.drop_sublist _ _).trans order, ?_, replied,
    exposed, ?_, parsed, total', ?_, ?_, ?_⟩
  · rw [getEvents, objects]
  · rw [hist]
    exact List.map_congr_left fun ev _ => latency ev
  · rw [counts, objects, lengths, List.length_map, parsed, skipped]
    simp
  · omega
  · omega

/-- The torn groups' lines, with latencies of 5 milliseconds. -/
theorem metrics_of_events_file_torn :
    ∃ (content : Bytes) (events : List Event) (e : Exposition ℚ),
      eventsFile tornGroups = some content ∧
      getMetricsPrometheus floatOfNumber asciiLoads exactStatistics
        (readLastLines asciiDecode (some content) 1000) = .ok e ∧
      e.latencyHist = events.map (fun ev => (ev.latencyMs : ℚ)) ∧ e.parsed = events.length ∧
      e.skipped ≤ 1 ∧ 3 ≤ e.scanned := by
  have counts : (eventsFile tornGroups).map (fun content => content.count (byte '\n')) = some 3 ∧
      tornGroups.countP RecordGroup.stopped = 1 := by
    decide +kernel
  obtain ⟨content, file, lines⟩ := Option.map_eq_some_iff.mp counts.1
  obtain ⟨events, -, e, -, -, -, exposed, hist, parsed, -, -, skipped, scanned⟩ :=
    metrics_of_events_file exactStatistics floatOfNumber (fun n => (n : ℚ))
      (fun _ => rfl) asciiDecode
      asciiLoads readsAscii_ascii tornGroups recordable_tornGroups content file 1000 (by decide)
  rw [counts.2] at skipped
  rw [lines] at scanned
  exact ⟨content, events, e, file, exposed, hist, parsed, skipped, scanned⟩

end EtradePipeline
