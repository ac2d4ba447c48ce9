import EtradePipeline.Service.RecordMetrics

/-! `analyze_events` of `benchmark_sender.py`.  It reads the whole record file, takes the last
objects, as many as the run has sent messages, and infers from their number how many messages were
dropped. -/

namespace EtradePipeline

open Kit.Json (Value get?)
open Kit.Split (filled)

/-! ### The code -/

/-- The newlines of a file that is open as text. -/
def translateNewlines : PyStr → PyStr
  | 13 :: 10 :: s => 10 :: translateNewlines s
  | 13 :: s => 10 :: translateNewlines s
  | c :: s => c :: translateNewlines s
  | [] => []

/-- `[ln.strip() for ln in f if ln.strip()]`. -/
def strippedLines (text : PyStr) : List PyStr :=
  (((translateNewlines text).splitOn 10).map strip).filter (· ≠ [])

namespace Benchmark

section Code

variable (loads : PyStr → Option Value)

/-- The loop over the reversed lines. -/
def lastParsed (expectSent : Int) : List PyStr → List Value → List Value
  | [], parsed => parsed
  | ln :: lines, parsed =>
    match loads ln with
    | none => lastParsed expectSent lines parsed
    | some obj =>
      let parsed := parsed ++ [obj]
      if expectSent ≤ parsed.length then parsed else lastParsed expectSent lines parsed

/-- The conversions `float` and `int`. -/
structure Conversions where
  float : Value → Except PyError ℚ
  int : Value → Except PyError Int
  float_integer : ∀ n : Int, float (.num n) = .ok n
  int_integer : ∀ n : Int, int (.num n) = .ok n

variable (py : Statistics ℚ) (num : Conversions)

/-- The body of the loop over the objects: the latencies and the sequence numbers.  All of the
lookup of the latency is inside `try`. -/
def analyzeStep (found : List ℚ × List Int) (obj : Value) : Except PyError (List ℚ × List Int) :=
  match tried (eventLatency num.float obj) with
  | none => .ok found
  | some lat => do
    let latencies := found.1 ++ [lat]
    if ← hasKey (pyStr "seq") obj then
      let seq ← num.int (← subscript (pyStr "seq") obj)
      return (latencies, found.2 ++ [seq])
    else return (latencies, found.2)

/-- `stats` of latencies, or `none` for the count of zero. -/
structure Stats where
  count : Nat
  min : Option ℚ
  max : Option ℚ
  mean : ℚ
  median : Option ℚ
  p95 : Option ℚ
  p99 : Option ℚ
  stddev : ℚ

def statsOf (latencies : List ℚ) : Except PyError (Option Stats) :=
  if latencies.isEmpty then .ok none
  else do
    let s := py.sorted latencies
    let mean ← py.mean latencies
    let median ← percentile s 50
    let p95 ← percentile s 95
    let p99 ← percentile s 99
    let stddev ← if 1 < latencies.length then py.pstdev latencies else .ok 0
    return some ⟨latencies.length, latencies.min?, latencies.max?, mean, median, p95, p99, stddev⟩

structure Analysis where
  parsedCount : Nat
  inferredDrops : Int
  seqRange : Option Int × Option Int
  latencyStats : Option Stats

/-- `analyze_events`, or `none` for the error that there is no file. -/
def analyzeEvents (decode : Bytes → PyStr) (file : Option Bytes) (expectSent : Int) :
    Except PyError (Option Analysis) :=
  match file with
  | none => .ok none
  | some content => do
    let parsed := (lastParsed loads expectSent (strippedLines (decode content)).reverse []).reverse
    let (latencies, seqs) ← parsed.foldlM (analyzeStep num) ([], [])
    let stats ← statsOf py latencies
    return some ⟨parsed.length, max 0 (expectSent - parsed.length), (seqs.min?, seqs.max?), stats⟩

end Code

/-! ### The lines -/

theorem translateNewlines_free {s : PyStr} (free : 13 ∉ s) : translateNewlines s = s := by
  induction s with
  | nil => rfl
  | cons c s ih =>
    rw [List.mem_cons, not_or] at free
    have other : c ≠ 13 := Ne.symm free.1
    unfold translateNewlines
    split
    · exact absurd (List.cons.inj ‹_›).1 other
    · exact absurd (List.cons.inj ‹_›).1 other
    · rename_i same
      obtain ⟨rfl, rfl⟩ := List.cons.inj same
      rw [ih free.2]
    · cases ‹c :: s = []›

theorem translateNewlines_bytes {s : Bytes} (free : ∀ c ∈ s, c ≠ 13) :
    translateNewlines (s.map UInt8.toNat) = s.map UInt8.toNat := by
  refine translateNewlines_free fun member => ?_
  obtain ⟨c, inside, same⟩ := List.mem_map.mp member
  exact free c inside (UInt8.toNat_inj.mp same)

theorem splitOn_toNat (s : Bytes) :
    (s.map UInt8.toNat).splitOn 10 = (s.splitOn (byte '\n')).map (List.map UInt8.toNat) := by
  induction s with
  | nil => rfl
  | cons c s ih =>
    obtain ⟨first, more, split⟩ := List.exists_cons_of_ne_nil (List.splitOn_ne_nil (byte '\n') s)
    have newline : c = byte '\n' ↔ c.toNat = 10 := by
      rw [UInt8.toNat_inj.symm]
      rfl
    rw [List.map_cons, List.splitOn_cons_eq_if_modifyHead,
      List.splitOn_cons_eq_if_modifyHead, ih, split]
    by_cases same : c = byte '\n'
    · simp [same, byte]
    · have other : c.toNat ≠ 10 := mt newline.mpr same
      simp [same, other]

section Reading

variable {decode : Bytes → PyStr} {loads : PyStr → Option Value} {groups : List RecordGroup}
  {content : Bytes}

/-- The characters of the record file. -/
theorem content_ascii (recordable : ∀ ev ∈ groupEvents groups, ev.Recordable)
    (file : eventsFile groups = some content) : ∀ c ∈ content, c < 128 ∧ c ≠ 13 := by
  obtain ⟨parts, mapped, rfl⟩ := Option.map_eq_some_iff.mp file
  obtain ⟨same, all⟩ := eq_map_of_mapM mapped []
  intro c member
  rw [same] at member
  obtain ⟨w, hw, inside⟩ := List.mem_flatten.mp member
  obtain ⟨g, hg, rfl⟩ := List.mem_map.mp hw
  have own : ∀ ev ∈ g.events, ev.Recordable :=
    fun ev he => recordable ev (List.mem_flatMap.mpr ⟨g, hg, he⟩)
  obtain ⟨w, taken⟩ := Option.isSome_iff_exists.mp (all g hg)
  rw [taken, Option.getD_some] at inside
  have text := (part_of_taken own taken).1.subset inside
  rw [framed_lines] at text
  obtain ⟨line, hl, inside⟩ := List.mem_flatten.mp text
  obtain ⟨ev, he, rfl⟩ := List.mem_map.mp hl
  rw [recordText_eq, List.mem_append, List.mem_singleton] at inside
  rcases inside with inside | rfl
  · obtain ⟨visible, ascii⟩ := (own ev he).printable c inside
    exact ⟨ascii, fun same => visible (by rw [same]; decide)⟩
  · decide

/-- The text of the file has the lines of the file. -/
theorem strippedLines_content (text : ReadsAscii decode loads)
    (ascii : ∀ c ∈ content, c < 128 ∧ c ≠ 13)
    (some_ : ∀ s ∈ filled (byte '\n') content, strip (decode s) ≠ []) :
    strippedLines (decode content) = (filled (byte '\n') content).map fun s =>
      strip (decode s) := by
  have plain : translateNewlines (decode content) = content.map UInt8.toNat := by
    rw [text.decodes content fun c member => (ascii c member).1]
    exact translateNewlines_bytes fun c member => (ascii c member).2
  have decoded : ∀ s ∈ content.splitOn (byte '\n'), s.map UInt8.toNat = decode s := fun s member =>
    (text.decodes s fun c inside =>
      (ascii c (Kit.Split.splitOn_subset content s member inside)).1).symm
  have kept : ∀ s ∈ content.splitOn (byte '\n'),
      decide (strip (s.map UInt8.toNat) ≠ []) = decide (s ≠ []) := by
    intro s member
    rw [decide_eq_decide]
    refine ⟨fun filled empty => filled (by rw [empty]; rfl), fun filled => ?_⟩
    rw [decoded s member]
    exact some_ s (List.mem_filter.mpr ⟨member, decide_eq_true filled⟩)
  rw [strippedLines, plain, splitOn_toNat, List.map_map, filled, List.filter_map]
  have lines : (content.splitOn (byte '\n')).filter
    ((fun x => decide (x ≠ [])) ∘ strip ∘ List.map UInt8.toNat) =
      (content.splitOn (byte '\n')).filter (· ≠ []) := List.filter_congr kept
  rw [lines]
  refine List.map_congr_left fun s member => ?_
  rw [Function.comp_apply, decoded s (List.mem_of_mem_filter member)]

/-- The loop over the reversed lines takes the last objects. -/
theorem lastParsed_eq (loads : PyStr → Option Value) (expectSent : Int) (lines : List PyStr)
    (parsed : List Value) (room : parsed.length < max 1 expectSent.toNat) :
    lastParsed loads expectSent lines parsed =
      parsed ++ (lines.filterMap loads).take (max 1 expectSent.toNat - parsed.length) := by
  induction lines generalizing parsed with
  | nil => simp [lastParsed]
  | cons ln lines ih =>
    unfold lastParsed
    cases object : loads ln with
    | none =>
      simp only
      rw [ih parsed room, List.filterMap_cons_none object]
    | some obj =>
      simp only [List.length_append, List.length_singleton]
      rw [List.filterMap_cons_some object]
      split_ifs with enough
      · have last : max 1 expectSent.toNat - parsed.length = 1 := by omega
        rw [last, List.take_succ_cons, List.take_zero]
      · have more : max 1 expectSent.toNat - parsed.length =
            max 1 expectSent.toNat - (parsed ++ [obj]).length + 1 := by
          rw [List.length_append, List.length_singleton]
          omega
        rw [ih _ (by rw [List.length_append, List.length_singleton]; omega), more,
          List.take_succ_cons, List.append_assoc, List.singleton_append]

/-- The objects that are analyzed are the last ones of the file. -/
theorem lastParsed_reverse (loads : PyStr → Option Value) (expectSent : Int) (lines : List PyStr) :
    (lastParsed loads expectSent lines.reverse []).reverse =
      (lines.filterMap loads).rtake (max 1 expectSent.toNat) := by
  rw [lastParsed_eq loads expectSent _ [] (by simp), List.nil_append, List.filterMap_reverse,
    List.rtake_eq_reverse_take_reverse, List.length_nil, Nat.sub_zero]

theorem analyze_objects (num : Conversions) (events : List Event) (found : List ℚ × List Int) :
    (events.map Event.object).foldlM (analyzeStep num) found =
      .ok (found.1 ++ events.map (fun ev => (ev.latencyMs : ℚ)),
        found.2 ++ events.map Event.seq) := by
  induction events generalizing found with
  | nil => simp [List.foldlM_nil, pure, Except.pure]
  | cons ev events ih =>
    have key : hasKey (pyStr "seq") ev.object = .ok true := rfl
    have value : subscript (pyStr "seq") ev.object = .ok (.num ev.seq) := rfl
    have step : analyzeStep num found ev.object =
        .ok (found.1 ++ [(ev.latencyMs : ℚ)], found.2 ++ [ev.seq]) := by
      rw [analyzeStep, eventLatency_object num.float_integer]
      simp only [tried, key, value, ok_bind, num.int_integer, if_true]
      rfl
    rw [List.map_cons, List.foldlM_cons, step, ok_bind, ih]
    simp

/-- The statistics of latencies, where `pstdev` raises no exception. -/
theorem statsOf_eq (py : Statistics ℚ) (deviates : ∀ l, l ≠ [] → ∃ d, py.pstdev l = .ok d)
    (latencies : List ℚ) :
    ∃ stats, statsOf py latencies = .ok stats ∧ (stats = none ↔ latencies = []) ∧
      ∀ s ∈ stats, s.count = latencies.length ∧ s.min = latencies.min? ∧ s.max = latencies.max? ∧
        s.median = atRank scaled (py.sorted latencies) 50 ∧
          s.p95 = atRank scaled (py.sorted latencies) 95 ∧
        s.p99 = atRank scaled (py.sorted latencies) 99 := by
  by_cases none : latencies = []
  · exact ⟨_, if_pos (List.isEmpty_iff.mpr none), by simp [none], by simp⟩
  · obtain ⟨mean, averaged⟩ := py.mean_ok latencies none
    obtain ⟨d, deviated⟩ := deviates latencies none
    have some_ : latencies.isEmpty = false := by simp [none]
    refine ⟨some ⟨latencies.length, latencies.min?, latencies.max?, mean, _, _, _,
      if 1 < latencies.length then d else 0⟩, ?_, by simp [none], by
        rintro s ⟨⟩
        exact ⟨rfl, rfl, rfl, rfl, rfl, rfl⟩⟩
    simp only [statsOf, some_, Bool.false_eq_true, if_false, averaged, percentile_eq,
      deviated, ok_bind]
    split_ifs <;> rfl

/-- What is analyzed of a record file: the last events that can be read in it. -/
theorem analyze_record_file (py : Statistics ℚ) (deviates : ∀ l, l ≠ [] → ∃ d, py.pstdev l = .ok d)
    (num : Conversions) (text : ReadsAscii decode loads)
    (recordable : ∀ ev ∈ groupEvents groups, ev.Recordable)
    (file : eventsFile groups = some content) (expectSent : Int) :
    ∃ served : List Event, served.Sublist (groupEvents groups) ∧
      (groups.countP RecordGroup.stopped = 0 → served = groupEvents groups) ∧
      ∃ a, analyzeEvents loads py num decode (some content) expectSent = .ok (some a) ∧
        a.parsedCount = (served.rtake (max 1 expectSent.toNat)).length ∧
        a.inferredDrops = max 0 (expectSent - a.parsedCount) ∧
        a.seqRange = (((served.rtake (max 1 expectSent.toNat)).map Event.seq).min?,
          ((served.rtake (max 1 expectSent.toNat)).map Event.seq).max?) ∧
        (.ok a.latencyStats : Except PyError (Option Stats)) =
          statsOf py ((served.rtake (max 1 expectSent.toNat)).map fun ev =>
            (ev.latencyMs : ℚ)) := by
  obtain ⟨served, order, read, lines, missed, some_⟩ := lines_of_eventsFile text recordable file
  have objects : (strippedLines (decode content)).filterMap loads = served.map Event.object := by
    rw [strippedLines_content text (content_ascii recordable file) some_,
      List.filterMap_map, ← read]
    exact List.filterMap_congr fun s member => (if_neg (some_ s member)).symm
  have taken : ((strippedLines (decode content)).filterMap loads).rtake (max 1 expectSent.toNat) =
      (served.rtake (max 1 expectSent.toNat)).map Event.object := by
    rw [objects, List.rtake, List.rtake, List.length_map, List.map_drop]
  obtain ⟨stats, computed, -⟩ := statsOf_eq py deviates
    ((served.rtake (max 1 expectSent.toNat)).map fun ev => (ev.latencyMs : ℚ))
  refine ⟨served, order, fun whole => ?_, ?_⟩
  · have all := count_of_eventsFile recordable file whole
    exact order.eq_of_length_le (by omega)
  · let last := served.rtake (max 1 expectSent.toNat)
    refine ⟨⟨last.length, max 0 (expectSent - last.length),
      ((last.map Event.seq).min?, (last.map Event.seq).max?),
      stats⟩, ?_, rfl, rfl, rfl, computed.symm⟩
    simp only [analyzeEvents, lastParsed_reverse, taken, analyze_objects, ok_bind,
      List.nil_append, computed, List.length_map]
    rfl

end Reading

end Benchmark

end EtradePipeline
