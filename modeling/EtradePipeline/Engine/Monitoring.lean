import EtradePipeline.Engine.Delivery
import EtradePipeline.Receiver.MetricsPage

/-! The metrics server beside the running engine.  It serves one connection after another: it loads
the metrics one by one while the other threads go on, and sends the page with as many calls of
`send` as it takes. -/

namespace EtradePipeline

open Kit.Transition (run run_cons_eq_some run_invariant' run_history)

/-- What a peer was sent on a connection that is closed, and whether the loop sent all of it. -/
structure Scrape where
  got : Bytes
  whole : Bool

/-- Where the thread of the metrics server is. -/
inductive MetricsServer where
  | accepting
  | receiving
  | loading (rest : List Gauge) (loaded : Gauge → Int)
  | sending (rest got : Bytes)
  | exited

/-- The engine, the counter of the write errors, and the metrics server with the connections that it
has closed. -/
structure Monitored where
  engine : Engine
  writeErrors : UInt64
  server : MetricsServer
  scrapes : List Scrape

inductive AcceptOutcome where
  | connected
  | again
  | failed

/-- What a `send` returns: the number of bytes taken, or -1 with `EINTR` or another error. -/
inductive SendOutcome where
  | sent (w : Nat)
  | interrupted
  | failed

inductive MonitoredStep (b : UInt64) where
  | engine (a : EngineStep b)
  | failWrite
  | stop
  | accept (outcome : AcceptOutcome)
  | request
  | load
  | send (outcome : SendOutcome)

namespace Monitored

def start (maxSize : Int64) (queue : SpscQueue Event) (b : UInt64) : Monitored :=
  ⟨.start maxSize queue b, 0, .accepting, []⟩

/-- The value that a load gives. -/
def load (m : Monitored) : Gauge → Int
  | .processed => m.engine.feed.receiver.processed.toNat
  | .dropped => m.engine.feed.receiver.dropped.toNat
  | .batches => m.engine.feed.receiver.batchesReceived.toNat
  | .writeErrors => m.writeErrors.toNat
  | .lastLatency => m.engine.feed.receiver.lastLatencyMs
  | .head => m.engine.feed.machine.queue.head.toNat
  | .tail => m.engine.feed.machine.queue.tail.toNat
  | .accepted => m.engine.pool.manager.metrics.orderAccepted.toNat
  | .rejected => m.engine.pool.manager.metrics.orderRejected.toNat
  | .fills => m.engine.pool.manager.metrics.ordersFilledCount.toNat
  | .volume => m.engine.pool.manager.metrics.filledVolume.toNat
  | .canceled => m.engine.pool.manager.metrics.ordersCanceled.toNat
  | .openOrders => m.engine.pool.manager.metrics.openOrders.toNat

/-- `resp`. -/
def response (capacity : UInt64) (loaded : Gauge → Int) : Bytes :=
  metricsResponse (metricsBody (families capacity loaded))

/-- The close of a connection. -/
def close (m : Monitored) (scrape : Scrape) : Monitored :=
  { m with server := .accepting, scrapes := m.scrapes ++ [scrape] }

/-- A `send` of `p` and `to_write`. -/
def send (m : Monitored) (rest got : Bytes) : SendOutcome → Option Monitored
  | .sent w =>
    if 1 ≤ w ∧ w ≤ rest.length then
      if w = rest.length then some (m.close ⟨got ++ rest, true⟩)
      else some { m with server := .sending (rest.drop w) (got ++ rest.take w) }
    else none
  | .interrupted => some m
  | .failed => some (m.close ⟨got, false⟩)

variable (toDouble : Bytes → Option Double) (maxSize : Int64)

/-- The state after a step, when it is enabled. -/
def step {b : UInt64} (m : Monitored) : MonitoredStep b → Option Monitored
  | .engine a => (m.engine.step toDouble maxSize a).map fun engine => { m with engine }
  | .failWrite => some { m with writeErrors := m.writeErrors + 1 }
  | .stop =>
    match m.server with
    | .accepting => some { m with server := .exited }
    | _ => none
  | .accept outcome =>
    match m.server, outcome with
    | .accepting, .connected => some { m with server := .receiving }
    | .accepting, .again => some m
    | .accepting, .failed => some { m with server := .exited }
    | _, _ => none
  | .request =>
    match m.server with
    | .receiving => some { m with server := .loading Gauge.order fun _ => 0 }
    | _ => none
  | .load =>
    match m.server with
    | .loading (g :: rest) loaded =>
      let loaded := Function.update loaded g (m.load g)
      if rest = [] then some { m with
        server := .sending (response m.engine.feed.machine.queue.capacity loaded) [] }
      else some { m with server := .loading rest loaded }
    | _ => none
  | .send outcome =>
    match m.server with
    | .sending rest got => m.send rest got outcome
    | _ => none

end Monitored

/-! ### The size of the queue -/

section Capacity

variable {T : Type} [Inhabited T] {m m' : Machine T}

omit [Inhabited T] in
theorem Machine.capacity_of_produce (stepped : m.produce = some m') :
    m'.queue.capacity = m.queue.capacity := by
  unfold Machine.produce at stepped
  split at stepped
  · cases stepped
  · simp only at stepped
    split_ifs at stepped <;> cases stepped <;> rfl
  · cases stepped
    rfl
  · cases stepped
    rfl
  · simp only at stepped
    split_ifs at stepped <;> cases stepped <;> rfl
  · split_ifs at stepped
    · split at stepped <;> cases stepped
      rfl
    · cases stepped
      rfl

theorem Machine.capacity_of_step {a : Access T} (stepped : m.step a = some m') :
    m'.queue.capacity = m.queue.capacity := by
  cases a with
  | produce => exact Machine.capacity_of_produce stepped
  | consume =>
    simp only [Machine.step, Machine.consume] at stepped
    split at stepped
    · cases stepped
    · split_ifs at stepped <;> cases stepped <;> rfl
    · cases stepped
      rfl
    · cases stepped
      rfl
  | push item =>
    simp only [Machine.step] at stepped
    split at stepped <;> cases stepped
    rfl
  | pushBulk batch =>
    simp only [Machine.step] at stepped
    split at stepped
    · split_ifs at stepped <;> cases stepped <;> rfl
    · cases stepped
  | pop =>
    simp only [Machine.step] at stepped
    split at stepped <;> cases stepped
    rfl

theorem Pipeline.capacity_of_step {toDouble : Bytes → Option Double} {b : UInt64} {p p' : Pipeline}
    {a : PipelineStep b} (stepped : p.step toDouble a = some p') :
    p'.machine.queue.capacity = p.machine.queue.capacity := by
  cases a with
  | receive g =>
    simp only [step, receive] at stepped
    split at stepped
    · split_ifs at stepped
      · cases stepped
        rfl
      · cases stepped
        rfl
      · obtain ⟨machine, moved, rfl⟩ := Option.map_eq_some_iff.mp stepped
        exact Machine.capacity_of_step moved
    · cases stepped
  | push =>
    simp only [step, push] at stepped
    split at stepped
    · obtain ⟨machine, moved, rfl⟩ := Option.map_eq_some_iff.mp stepped
      have same := Machine.capacity_of_produce moved
      split <;> exact same
    · cases stepped
  | count =>
    simp only [step, count] at stepped
    split at stepped <;> cases stepped
    rfl
  | pop =>
    simp only [step] at stepped
    split_ifs at stepped
    obtain ⟨machine, moved, rfl⟩ := Option.map_eq_some_iff.mp stepped
    exact Machine.capacity_of_step moved
  | consume =>
    simp only [step, consume] at stepped
    obtain ⟨machine, moved, rfl⟩ := Option.map_eq_some_iff.mp stepped
    have same := Machine.capacity_of_step moved
    split <;> exact same
  | apply =>
    simp only [step, apply] at stepped
    obtain ⟨ev, held, rfl⟩ := Option.map_eq_some_iff.mp stepped
    rfl

theorem Pipeline.capacity_of_run {toDouble : Bytes → Option Double} {b : UInt64} {p p' : Pipeline}
    {steps : List (PipelineStep b)} (ran : run (Pipeline.step toDouble) p steps = some p') :
    p'.machine.queue.capacity = p.machine.queue.capacity :=
  run_invariant' (I := fun x => x.machine.queue.capacity = p.machine.queue.capacity)
    (fun _ _ _ same stepped => (Pipeline.capacity_of_step stepped).trans same) rfl ran

/-- The size that two loads give is less than the capacity, at whatever times they are made. -/
theorem queueSize_lt {capacity : UInt64} {loaded : Gauge → Int} {h t : UInt64}
    (head : loaded .head = h.toNat) (tail : loaded .tail = t.toNat) (headLt : h < capacity)
    (tailLt : t < capacity) : queueSize capacity loaded < capacity := by
  have first : UInt64.ofNat (loaded .head).toNat = h := by simp [head]
  have last : UInt64.ofNat (loaded .tail).toNat = t := by simp [tail]
  rw [queueSize, first, last]
  rw [UInt64.lt_iff_toNat_lt] at headLt tailLt ⊢
  split_ifs with order
  · rw [UInt64.toNat_sub_of_le _ _ order]
    omega
  · have least : t ≤ h := UInt64.le_of_lt (UInt64.not_le.mp order)
    have apart : t.toNat < h.toNat := UInt64.lt_iff_toNat_lt.mp (UInt64.not_le.mp order)
    have part := UInt64.toNat_sub_of_le _ _ least
    have within : h - t ≤ capacity := UInt64.le_iff_toNat_le.mpr (by omega)
    rw [UInt64.toNat_sub_of_le _ _ within, part]
    omega

end Capacity

namespace Monitored

variable {toDouble : Bytes → Option Double} {maxSize : Int64} {b : UInt64} {m m' : Monitored}

/-- A `send` leaves bytes, or it ends the connection. -/
theorem send_cases {rest got : Bytes} {outcome : SendOutcome} (at_ : m.server = .sending rest got)
    (some_ : rest ≠ []) (stepped : m.send rest got outcome = some m') :
    (∃ rest' got', rest' ≠ [] ∧ got' ++ rest' = got ++ rest ∧
      m' = { m with server := .sending rest' got' }) ∨
      ∃ sc : Scrape, sc.got <+: got ++ rest ∧ (sc.whole = true ↔ sc.got = got ++ rest) ∧
        m' = m.close sc := by
  cases outcome with
  | sent w =>
    simp only [send] at stepped
    split_ifs at stepped with possible all <;> cases stepped
    · exact .inr ⟨_, List.prefix_refl _, by simp, rfl⟩
    · refine .inl ⟨_, _, ?_, ?_, rfl⟩
      · rw [ne_eq, List.drop_eq_nil_iff]
        omega
      · rw [List.append_assoc, List.take_append_drop]
  | interrupted =>
    cases stepped
    exact .inl ⟨rest, got, some_, rfl, by rw [← at_]⟩
  | failed =>
    cases stepped
    exact .inr ⟨_, List.prefix_append _ _, by simp [some_], rfl⟩

/-! ### The engine under it -/

theorem engine_of_step {a : MonitoredStep b} (stepped : m.step toDouble maxSize a = some m') :
    m'.engine = m.engine ∨ ∃ a : EngineStep b, m.engine.step toDouble maxSize a =
      some m'.engine := by
  cases a with
  | engine a =>
    obtain ⟨engine, moved, rfl⟩ := Option.map_eq_some_iff.mp stepped
    exact .inr ⟨a, moved⟩
  | failWrite =>
    cases stepped
    exact .inl rfl
  | stop | request =>
    simp only [step] at stepped
    split at stepped <;> cases stepped
    exact .inl rfl
  | accept outcome =>
    simp only [step] at stepped
    split at stepped <;> cases stepped <;> exact .inl rfl
  | load =>
    simp only [step] at stepped
    split at stepped
    · split_ifs at stepped <;> cases stepped <;> exact .inl rfl
    · cases stepped
  | send outcome =>
    simp only [step] at stepped
    split at stepped
    · cases outcome with
      | sent w =>
        simp only [send] at stepped
        split_ifs at stepped <;> cases stepped <;> exact .inl rfl
      | interrupted | failed =>
        cases stepped
        exact .inl rfl
    · cases stepped

/-- A monitored run is a run of the engine. -/
theorem engine_run {steps : List (MonitoredStep b)}
    (ran : run (step toDouble maxSize) m steps = some m') :
    ∃ engineSteps : List (EngineStep b),
      run (Engine.step toDouble maxSize) m.engine engineSteps = some m'.engine := by
  induction steps generalizing m with
  | nil =>
    cases ran
    exact ⟨[], rfl⟩
  | cons a steps ih =>
    obtain ⟨mid, stepped, rest⟩ := run_cons_eq_some.mp ran
    obtain ⟨engineSteps, later⟩ := ih rest
    obtain same | ⟨a, first⟩ := engine_of_step stepped
    · exact ⟨engineSteps, same ▸ later⟩
    · exact ⟨a :: engineSteps, run_cons_eq_some.mpr ⟨_, first, later⟩⟩

/-- The queue of every state of a run has its capacity, and its indices are below it. -/
theorem queue_of_run {queue : SpscQueue Event} (holds : queue.Represents 0 [] [])
    {steps : List (MonitoredStep b)}
    (ran : run (step toDouble maxSize) (start maxSize queue b) steps = some m) :
    let q := m.engine.feed.machine.queue
    q.capacity = queue.capacity ∧ q.head < queue.capacity ∧ q.tail < queue.capacity := by
  obtain ⟨engineSteps, engineRan⟩ := engine_run ran
  have feedRan := Engine.feed_run engineRan
  obtain ⟨inv, -⟩ :=
    Pipeline.inv_run _ (Pipeline.inv_start holds) (fun batched => if_pos batched) feedRan
  have same : m.engine.feed.machine.queue.capacity = queue.capacity :=
    Pipeline.capacity_of_run feedRan
  have indices := inv.machine.safe.indices
  exact ⟨same, same ▸ indices⟩

/-! ### The history of a scrape -/

/-- The server loads `x` in some state of the run, for the connection that is the `k`th to be
closed. -/
def ReadIn (s : Monitored) (toDouble : Bytes → Option Double) (maxSize : Int64)
    (done : List (MonitoredStep b)) (k : Nat) (g : Gauge) (x : Int) : Prop :=
  ∃ before, before <+: done ∧ ∃ m, run (step toDouble maxSize) s before = some m ∧
    m.scrapes.length = k ∧ (∃ rest loaded, m.server = .loading (g :: rest) loaded) ∧ m.load g = x

theorem ReadIn.mono {s : Monitored} {done more : List (MonitoredStep b)} {k : Nat}
    {g : Gauge} {x : Int} (read : s.ReadIn toDouble maxSize done k g x) :
    s.ReadIn toDouble maxSize (done ++ more) k g x := by
  obtain ⟨before, part, found⟩ := read
  exact ⟨before, part.trans (List.prefix_append _ _), found⟩

/-- What the steps so far say of the connections. -/
structure Served (s : Monitored) (toDouble : Bytes → Option Double) (maxSize : Int64)
    (capacity : UInt64) (done : List (MonitoredStep b)) (m : Monitored) : Prop where
  closed : ∀ k sc, m.scrapes[k]? = some sc → ∃ loaded : Gauge → Int,
    (∀ g, s.ReadIn toDouble maxSize done k g (loaded g)) ∧ sc.got <+: response capacity loaded ∧
      (sc.whole = true ↔ sc.got = response capacity loaded)
  loading : ∀ rest loaded, m.server = .loading rest loaded → ∀ g, g ∉ rest →
    s.ReadIn toDouble maxSize done m.scrapes.length g (loaded g)
  sending : ∀ rest got, m.server = .sending rest got → rest ≠ [] ∧ ∃ loaded : Gauge → Int,
    (∀ g, s.ReadIn toDouble maxSize done m.scrapes.length g (loaded g)) ∧
      got ++ rest = response capacity loaded

variable {s : Monitored} {capacity : UInt64} {done : List (MonitoredStep b)}

/-- A step that closes no connection, loads nothing and sends nothing. -/
theorem Served.quiet (served : s.Served toDouble maxSize capacity done m) (a : MonitoredStep b)
    (scrapes : m'.scrapes = m.scrapes)
    (server : m'.server = m.server ∨ m'.server = .accepting ∨ m'.server = .receiving ∨
      m'.server = .exited) :
    s.Served toDouble maxSize capacity (done ++ [a]) m' where
  closed k sc at_ := by
    obtain ⟨loaded, read, found⟩ := served.closed k sc (scrapes ▸ at_)
    exact ⟨loaded, fun g => (read g).mono, found⟩
  loading rest loaded at_ g out := by
    obtain same | other | other | other := server
    · exact scrapes ▸ (served.loading rest loaded (same ▸ at_) g out).mono
    all_goals
      rw [other] at at_
      cases at_
  sending rest got at_ := by
    obtain same | other | other | other := server
    · obtain ⟨some_, loaded, read, whole⟩ := served.sending rest got (same ▸ at_)
      exact ⟨some_, loaded, fun g => scrapes ▸ (read g).mono, whole⟩
    all_goals
      rw [other] at at_
      cases at_

theorem served_start (maxSize : Int64) (queue : SpscQueue Event) :
    s.Served toDouble maxSize capacity ([] : List (MonitoredStep b)) (start maxSize queue b) :=
  ⟨nofun, nofun, nofun⟩

theorem response_ne_nil (capacity : UInt64) (loaded : Gauge → Int) :
    response capacity loaded ≠ [] := by
  simp [response, metricsResponse, bytes]

/-- The load of a metric. -/
theorem Served.load (served : s.Served toDouble maxSize capacity done m)
    (before : run (step toDouble maxSize) s done = some m) {g : Gauge} {rest : List Gauge}
    {loaded : Gauge → Int} (at_ : m.server = .loading (g :: rest) loaded) (a : MonitoredStep b) :
    ∀ g', g' ∉ rest → s.ReadIn toDouble maxSize (done ++ [a]) m.scrapes.length g'
      (Function.update loaded g (m.load g) g') := by
  intro g' out
  by_cases same : g' = g
  · rw [same, Function.update_self]
    exact ⟨done, List.prefix_append _ _, m, before, rfl, ⟨rest, loaded, at_⟩, rfl⟩
  · rw [Function.update_of_ne same]
    exact (served.loading _ _ at_ g' (fun member => (List.mem_cons.mp member).elim same out)).mono

theorem served_step {a : MonitoredStep b} (before : run (step toDouble maxSize) s done = some m)
    (capacity_ : m.engine.feed.machine.queue.capacity = capacity)
    (served : s.Served toDouble maxSize capacity done m)
    (stepped : m.step toDouble maxSize a = some m') :
    s.Served toDouble maxSize capacity (done ++ [a]) m' := by
  cases a with
  | engine e =>
    obtain ⟨engine, -, rfl⟩ := Option.map_eq_some_iff.mp stepped
    exact served.quiet _ rfl (.inl rfl)
  | failWrite =>
    cases stepped
    exact served.quiet _ rfl (.inl rfl)
  | stop =>
    simp only [step] at stepped
    split at stepped <;> cases stepped
    exact served.quiet _ rfl (.inr (.inr (.inr rfl)))
  | accept outcome =>
    simp only [step] at stepped
    split at stepped <;> cases stepped
    · exact served.quiet _ rfl (.inr (.inr (.inl rfl)))
    · exact served.quiet _ rfl (.inl rfl)
    · exact served.quiet _ rfl (.inr (.inr (.inr rfl)))
  | request =>
    simp only [step] at stepped
    split at stepped <;> cases stepped
    have kept : s.Served toDouble maxSize capacity (done ++ [.request])
        { m with server := .receiving } :=
      served.quiet .request rfl (.inr (.inr (.inl rfl)))
    refine ⟨kept.closed, fun rest loaded at_ g out => ?_, nofun⟩
    cases at_
    exact absurd (by cases g <;> decide) out
  | load =>
    simp only [step] at stepped
    split at stepped
    · rename_i g rest loaded at_
      have read := served.load before at_ .load
      have kept : s.Served toDouble maxSize capacity (done ++ [.load])
          { m with server := .accepting } :=
        served.quiet .load rfl (.inr (.inl rfl))
      split_ifs at stepped with last <;> cases stepped
      · refine ⟨kept.closed, nofun, fun rest' got at_' => ?_⟩
        cases at_'
        subst last
        exact ⟨response_ne_nil _ _, _, fun g' => read g' List.not_mem_nil, by rw [capacity_]; rfl⟩
      · refine ⟨kept.closed, fun rest' loaded' at_' => ?_, nofun⟩
        cases at_'
        exact read
    · cases stepped
  | send outcome =>
    simp only [step] at stepped
    split at stepped
    · rename_i rest got at_
      obtain ⟨some_, loaded, read, whole⟩ := served.sending rest got at_
      have kept : s.Served toDouble maxSize capacity (done ++ [.send outcome])
          { m with server := .accepting } :=
        served.quiet (.send outcome) rfl (.inr (.inl rfl))
      obtain ⟨rest', got', filled, same, rfl⟩ | ⟨sc, part, all, rfl⟩ := send_cases at_ some_ stepped
      · refine ⟨kept.closed, nofun, fun _ _ at_' => ?_⟩
        cases at_'
        exact ⟨filled, loaded, fun g => (read g).mono, same.trans whole⟩
      · refine ⟨fun k sc' at_' => ?_, nofun, nofun⟩
        rw [close, List.getElem?_append] at at_'
        split_ifs at at_' with old
        · exact kept.closed k sc' at_'
        · obtain ⟨last, rfl⟩ : k - m.scrapes.length = 0 ∧ sc = sc' := by
            simpa [List.getElem?_singleton] using at_'
          have own : k = m.scrapes.length := by omega
          rw [whole] at part all
          exact ⟨loaded, fun g => own ▸ (read g).mono, part, all⟩
    · cases stepped

end Monitored

open Monitored

/-- In every run of the engine with its metrics server, what the peer of a closed connection has got
is the start of a page, or all of it exactly when the server has sent all of it.  A scraper takes
only a whole page, and reads in it the values that the server has loaded for this connection, with a
queue that is not full. -/
theorem scrape_reads_engine (toDouble : Bytes → Option Double) (maxSize : Int64) (fuel : Nat)
    (enough : 64 ≤ fuel) (requested : UInt64) (bound : requested.toNat ≤ 2 ^ 63) :
    ∃ q, SpscQueue.new Event fuel requested = some q ∧
      ∀ (b : UInt64) (steps : List (MonitoredStep b)) (m : Monitored),
        run (step toDouble maxSize) (start maxSize q b) steps = some m →
          ∀ k sc, m.scrapes[k]? = some sc → ∃ loaded : Gauge → Int,
            (∀ g, (start maxSize q b).ReadIn toDouble maxSize steps k g (loaded g)) ∧
            queueSize q.capacity loaded < q.capacity ∧
            sc.got <+: response q.capacity loaded ∧
            (sc.whole = true ↔ sc.got = response q.capacity loaded) ∧
            readScrape sc.got = if sc.whole
              then some ((families q.capacity loaded).map fun f => (f.sample, f.value))
              else none := by
  obtain ⟨q, built, -, holds⟩ := SpscQueue.new_represents (T := Event) enough bound
  refine ⟨q, built, fun b steps m ran k sc at_ => ?_⟩
  have served : (start maxSize q b).Served toDouble maxSize q.capacity steps m :=
    run_history (served_start maxSize q)
      (fun done a mid after before served stepped =>
        served_step before (queue_of_run holds before).1 served stepped) ran
  obtain ⟨loaded, read, part, whole⟩ := served.closed k sc at_
  obtain ⟨_, -, first, atHead, -, -, head⟩ := read .head
  obtain ⟨_, -, last, atTail, -, -, tail⟩ := read .tail
  refine ⟨loaded, read, ?_, part, whole, ?_⟩
  · exact queueSize_lt head.symm tail.symm (queue_of_run holds atHead).2.1
      (queue_of_run holds atTail).2.2
  · rw [readScrape_page q.capacity loaded part]
    exact if_congr whole.symm rfl rfl

/-- A page that is loaded partly before and partly after the rivals trade, and one whose sending
fails. -/
def scraped : List (MonitoredStep 2) :=
  [.accept .again, .accept .connected, .request] ++ List.replicate 6 .load ++ rivals.map .engine ++
    List.replicate 7 .load ++ [.send .interrupted, .send (.sent 1705)] ++
    [.accept .connected, .request] ++ List.replicate 13 .load ++ [.send .failed, .stop]

theorem scrape_reads_engine_rivals : ∃ q m, run (step stod 1000) (start 1000 q 2) scraped = some m ∧
    (m.scrapes.map fun sc => (sc.got.length, sc.whole)) = [(1705, true), (0, false)] ∧
    ∀ sc ∈ m.scrapes, ∃ loaded : Gauge → Int, queueSize q.capacity loaded < q.capacity ∧
      readScrape sc.got = if sc.whole
        then some ((families q.capacity loaded).map fun f => (f.sample, f.value)) else none := by
  obtain ⟨q, built, reads⟩ := scrape_reads_engine stod 1000 64 (le_refl 64) 2 (by decide)
  have sizes : ∀ q ∈ SpscQueue.new Event 64 2, (run (step stod 1000) (start 1000 q 2) scraped).map
      (fun m => m.scrapes.map fun sc => (sc.got.length, sc.whole)) =
        some [(1705, true), (0, false)] := by
    decide +kernel
  obtain ⟨m, ran, all⟩ := Option.map_eq_some_iff.mp (sizes q built)
  refine ⟨q, m, ran, all, fun sc member => ?_⟩
  obtain ⟨k, at_⟩ := List.getElem?_of_mem member
  obtain ⟨loaded, -, room, -, -, read⟩ := reads 2 scraped m ran k sc at_
  exact ⟨loaded, room, read⟩

end EtradePipeline
