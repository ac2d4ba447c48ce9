import EtradePipeline.Engine.Stopping

/-! What every run of the engine's threads keeps. -/

namespace EtradePipeline

open Kit.Transition

namespace Listener

/-- What the thread of a server does, one constructor for each outcome.  The result `woken` is also
that of a signal. -/
inductive Moves (server : Server) (asked : UInt16) (stop : Bool) (l : Listener) : Listener → Prop
  | left (early : l.thread = .bind ∨ l.thread = .accept ∨ l.thread = .testStop ∧ stop = true) :
      Moves server asked stop l closed
  | bound (port : UInt16) (at_ : l.thread = .bind) (nonzero : port ≠ 0)
      (same : asked = 0 ∨ asked = port) : Moves server asked stop l ⟨.testStop, some port, []⟩
  | waited (at_ : l.thread = .testStop) (clear : stop = false) :
      Moves server asked stop l { l with thread := .accept }
  | accepted (speaks : Bool) (backlog : List Bool) (at_ : l.thread = .accept)
      (next : l.backlog = speaks :: backlog) :
      Moves server asked stop l { l with
        thread := if server = .metrics then .recv speaks else .testStop
        backlog }
  | woken (at_ : l.thread = .accept ∨ ∃ speaks, l.thread = .recv speaks) :
      Moves server asked stop l { l with thread := .testStop }

theorem moves_of_step {server : Server} {asked : UInt16} {stop : Bool} {l l' : Listener}
    (stepped : l.step server stop = some l') : l.Moves server asked stop l' := by
  unfold step at stepped
  cases at_ : l.thread with
  | notStarted | bind | returned =>
    rw [at_] at stepped
    cases stepped
  | testStop =>
    rw [at_] at stepped
    cases stepped
    split_ifs with set
    · exact .left (.inr (.inr ⟨at_, set⟩))
    · exact .waited at_ (Bool.eq_false_iff.mpr set)
  | accept =>
    cases next : l.backlog with
    | nil =>
      rw [at_, next] at stepped
      cases stepped
    | cons speaks backlog =>
      rw [at_, next] at stepped
      cases server with
      | metrics =>
        cases stepped
        exact .accepted speaks backlog at_ next
      | gateway =>
        cases stepped
        exact .accepted speaks backlog at_ next
  | recv speaks =>
    rw [at_] at stepped
    cases speaks with
    | true =>
      cases stepped
      exact .woken (.inr ⟨true, at_⟩)
    | false => cases stepped

/-- Only `bind` gives a server a port. -/
theorem port_of_step {server : Server} {stop : Bool} {l l' : Listener} {port : UInt16}
    (stepped : l.step server stop = some l') (bound : l'.port = some port) :
    l.port = some port := by
  have moves : l.Moves server 0 stop l' := moves_of_step stepped
  cases moves with
  | left => cases bound
  | bound _ at_ =>
    rw [step, at_] at stepped
    cases stepped
  | waited | accepted | woken => exact bound

/-- A signal wakes the thread of a server or finds it elsewhere. -/
theorem moves_of_interrupted (server : Server) (asked : UInt16) (stop : Bool) (l : Listener) :
    l.interrupted = l ∨ l.Moves server asked stop l.interrupted := by
  unfold interrupted
  split
  · exact .inr (.woken (.inl ‹_›))
  · exact .inr (.woken (.inr ⟨_, ‹_›⟩))
  · exact .inl rfl

@[simp] theorem interrupted_port (l : Listener) : l.interrupted.port = l.port := by
  unfold interrupted
  split <;> rfl

/-- A server that has not returned listens, on a port that it may ask for. -/
structure Sound (asked : UInt16) (l : Listener) : Prop where
  port : ∀ p ∈ l.port, p ≠ 0 ∧ (asked = 0 ∨ asked = p)
  listens : l.port = none → l.thread = .notStarted ∨ l.thread = .bind ∨ l.thread = .returned

/-- No peer of the server stays silent. -/
structure Spoken (l : Listener) : Prop where
  pending : false ∉ l.backlog
  heard : l.thread ≠ .recv false

variable {server : Server} {asked : UInt16} {stop : Bool} {l l' : Listener}

theorem Moves.sound (moves : l.Moves server asked stop l') (sound : l.Sound asked) :
    l'.Sound asked := by
  cases moves with
  | left => exact ⟨by simp [closed], by simp [closed]⟩
  | bound port at_ nonzero same => exact ⟨by simp [nonzero, same], by simp⟩
  | waited at_ | accepted _ _ at_ =>
    exact ⟨sound.port, fun none => by simpa [at_] using sound.listens none⟩
  | woken at_ =>
    refine ⟨sound.port, fun none => ?_⟩
    obtain at_ | ⟨speaks, at_⟩ := at_ <;> simpa [at_] using sound.listens none

theorem Moves.spoken (moves : l.Moves server asked stop l') (spoken : l.Spoken) : l'.Spoken := by
  cases moves with
  | left | bound => exact ⟨by simp [closed], by simp [closed]⟩
  | waited | woken => exact ⟨spoken.pending, by simp⟩
  | accepted speaks backlog at_ next =>
    have pending := spoken.pending
    rw [next, List.mem_cons, not_or] at pending
    refine ⟨pending.2, ?_⟩
    cases server <;> simp [Ne.symm pending.1]

/-- A thread that has not been started, or has returned, makes no step, and none is started
twice. -/
theorem Moves.live (moves : l.Moves server asked stop l') :
    l.thread ≠ .notStarted ∧ l.thread ≠ .returned ∧ l'.thread ≠ .notStarted := by
  cases moves with
  | left early => obtain at_ | at_ | ⟨at_, -⟩ := early <;> simp [at_, closed]
  | bound port at_ | waited at_ => simp [at_]
  | accepted speaks backlog at_ next => cases server <;> simp [at_]
  | woken at_ => obtain at_ | ⟨speaks, at_⟩ := at_ <;> simp [at_]

/-- A thread goes to wait only while the stop flag is not set. -/
theorem Moves.clear (moves : l.Moves server asked stop l') (waits : l'.thread = .accept) :
    stop = false := by
  cases moves with
  | left | bound | woken => cases waits
  | waited at_ clear => exact clear
  | accepted => cases server <;> cases waits

end Listener

namespace EngineThreads

variable {args : EngineArgs} {N : Nat} {e e' : EngineThreads}

/-- The arguments of the calls of `tcp_poke` that `main` has made. -/
def poked (args : EngineArgs) (e : EngineThreads) : List Int :=
  match e.main with
  | .testStop | .pokeReceiver | .pokeGateway => []
  | .pokeMetrics => [args.gwPort]
  | .joinReceiver | .joinGateway | .returned => [args.gwPort, args.metricsPort]

/-- No two servers listen on one port. -/
def Distinct (e : EngineThreads) : Prop :=
  ∀ port, (e.listener .metrics).port = some port → (e.listener .gateway).port ≠ some port

/-- What every run keeps: the ports are different, a server that `main` has connected to does not
wait without a connection, a connection to port 0 has ended the engine, and a thread that waits for
another goes on when that has returned. -/
structure Inv (args : EngineArgs) (N : Nat) (e : EngineThreads) : Prop where
  feed : e.feed.Inv .empty N
  sound : ∀ server, (e.listener server).Sound (args.asked server)
  distinct : e.Distinct
  awake : ∀ port ∈ e.poked args, 0 < port → ∀ server,
    (e.listener server).port = some (UInt16.ofInt port) → (e.listener server).thread = .accept →
      (e.listener server).backlog ≠ []
  unbroken : e.killed = false → ∀ port ∈ e.poked args, 0 < port → UInt16.ofInt port ≠ 0
  stopped : e.main ≠ .testStop → e.feed.stop = true
  joined : e.main = .joinGateway ∨ e.main = .returned → e.receiver = .returned
  left : e.main = .returned → (e.listener .gateway).thread = .returned
  started : (e.listener .gateway).thread ≠ .notStarted
  opening : e.receiver = .opening → (e.listener .metrics).thread = .notStarted
  running : e.receiver = .running ∨ e.receiver = .joinMetrics →
    (e.listener .metrics).thread ≠ .notStarted
  drained : e.receiver = .joinMetrics → e.feed.consumer = .returned
  ended : e.receiver = .returned →
    (e.listener .metrics).thread = .notStarted ∨
      (e.listener .metrics).thread = .returned ∧ e.feed.consumer = .returned

theorem act_of_step {a : ThreadStep} (stepped : e.step args a = some e') :
    e.killed = false ∧ e.act args a = some e' := by
  unfold step at stepped
  split_ifs at stepped with killed
  exact ⟨Bool.eq_false_iff.mpr killed, stepped⟩

/-- `main` changes its own stage, and makes the connections of `tcp_poke`. -/
theorem mainStep_cases {answered : Bool} (stepped : e.mainStep args answered = some e') :
    ∃ stage, e' = { e with main := stage } ∨
      ∃ port ∈ [args.gwPort, args.metricsPort],
        e' = { e.tcpPoke port answered with main := stage } := by
  unfold mainStep at stepped
  cases at_ : e.main with
  | testStop | pokeReceiver =>
    rw [at_] at stepped
    cases stepped
    exact ⟨_, .inl rfl⟩
  | pokeGateway =>
    rw [at_] at stepped
    cases stepped
    exact ⟨_, .inr ⟨_, List.mem_cons_self, rfl⟩⟩
  | pokeMetrics =>
    rw [at_] at stepped
    cases stepped
    exact ⟨_, .inr ⟨_, List.mem_cons_of_mem _ List.mem_cons_self, rfl⟩⟩
  | joinReceiver | joinGateway =>
    simp only [at_] at stepped
    split_ifs at stepped
    cases stepped
    exact ⟨_, .inl rfl⟩
  | returned =>
    rw [at_] at stepped
    cases stepped

/-- The receiver changes its own stage. -/
theorem joinStep_cases (stepped : e.joinStep = some e') : ∃ stage,
    e' = { e with receiver := stage } := by
  unfold joinStep at stepped
  cases at_ : e.receiver with
  | opening | returned =>
    rw [at_] at stepped
    cases stepped
  | running | joinMetrics =>
    simp only [at_] at stepped
    split_ifs at stepped
    cases stepped
    exact ⟨_, rfl⟩

theorem feedStep_cases {a : FeedStep} (stepped : e.feedStep a = some e') :
    ∃ feed, e.feed.step a = some feed ∧ e' = { e with feed } := by
  unfold feedStep at stepped
  split at stepped
  · cases stepped
  · obtain ⟨feed, moved, rfl⟩ := Option.map_eq_some_iff.mp stepped
    exact ⟨feed, moved, rfl⟩

/-- The step of a server. -/
theorem Inv.moved (inv : e.Inv args N) {server : Server} {l : Listener}
    (moves : (e.listener server).Moves server (args.asked server) e.feed.stop l)
    (free : ∀ port, l.port = some port →
      (e.listener server).port = some port ∨ (e.listener .metrics).port ≠ some port ∧
        (e.listener .gateway).port ≠ some port) :
    (e.withListener server l).Inv args N := by
  obtain ⟨started, live, starts⟩ := moves.live
  refine {
    feed := inv.feed, stopped := inv.stopped, joined := inv.joined, drained := inv.drained
    unbroken := inv.unbroken
    sound := ?_, distinct := ?_, awake := ?_, left := ?_, started := ?_, opening :=
      ?_, running := ?_
    ended := ?_ }
  · intro other
    by_cases same : other = server
    · subst same
      simpa using moves.sound (inv.sound other)
    · simpa [withListener_ne, same] using inv.sound other
  · intro port
    cases server
    · exact fun bound => (free port bound).elim (inv.distinct port) And.right
    · exact fun other bound => (free port bound).elim (inv.distinct port other) fun none =>
        none.1 other
  · intro port member positive other
    by_cases same : other = server
    · subst same
      intro _ waits
      rw [withListener_self] at waits
      have clear := moves.clear waits
      have early : e.main = .testStop := by
        by_contra later
        rw [inv.stopped later] at clear
        cases clear
      rw [poked, withListener_main, early] at member
      cases member
    · simpa [withListener_ne, same] using inv.awake port member positive other
  · intro late
    cases server
    · exact inv.left late
    · exact absurd (inv.left late) live
  · cases server
    · exact inv.started
    · exact starts
  · intro early
    cases server
    · exact absurd (inv.opening early) started
    · exact inv.opening early
  · intro late
    cases server
    · exact starts
    · exact inv.running late
  · intro late
    cases server
    · exact ((inv.ended late).elim started fun done => live done.1).elim
    · exact inv.ended late

/-- A stop flag that is set stays so, and a consumer that has returned too. -/
theorem feed_keeps {f f' : Feed} {a : FeedStep} (stepped : f.step a = some f') :
    (f.stop = true → f'.stop = true) ∧ (f.consumer = .returned → f'.consumer = .returned) := by
  cases Feed.steps_of_step stepped with
  | requested | stopped => exact ⟨fun _ => rfl, id⟩
  | timedOut | pushed | continued | sawStop | counted | notified => exact ⟨id, id⟩
  | entered at_ | leftAtHead at_ | popped _ at_ | foundNone at_ | applied _ at_ | sawShutdown at_
  | leftAtBottom at_ =>
    exact ⟨id, fun done => by simp [done] at at_⟩
  | looped at_ => exact ⟨id, fun done => by simp [done] at at_⟩

/-- A step of the feed, or the setting of its stop flag. -/
theorem Inv.fed (inv : e.Inv args N) {a : FeedStep} {feed : Feed}
    (stepped : e.feed.step a = some feed) :
    Inv args N { e with feed } := by
  obtain ⟨stops, returns⟩ := feed_keeps stepped
  exact {
    feed := Feed.inv_step inv.feed stepped
    sound := inv.sound, distinct := inv.distinct, awake := inv.awake, unbroken := inv.unbroken
    stopped := fun late => stops (inv.stopped late)
    joined := inv.joined, left := inv.left, started := inv.started, opening := inv.opening
    running := inv.running
    drained := fun late => returns (inv.drained late)
    ended := fun late => (inv.ended late).imp_right fun done => ⟨done.1, returns done.2⟩ }

/-- A connection reaches the server that listens on the port. -/
theorem listener_connect (distinct : e.Distinct) (port : UInt16) (speaks : Bool) (server : Server) :
    (e.connect port speaks).listener server =
      if (e.listener server).port = some port then (e.listener server).connected speaks
      else e.listener server := by
  unfold connect
  by_cases metrics : (e.listener .metrics).port = some port
  · rw [if_pos metrics]
    cases server with
    | metrics => exact (if_pos metrics).symm
    | gateway => exact (if_neg (distinct port metrics)).symm
  · rw [if_neg metrics]
    by_cases gateway : (e.listener .gateway).port = some port
    · rw [if_pos gateway]
      cases server with
      | metrics => exact (if_neg metrics).symm
      | gateway => exact (if_pos gateway).symm
    · rw [if_neg gateway]
      cases server with
      | metrics => exact (if_neg metrics).symm
      | gateway => exact (if_neg gateway).symm

/-- What a connection leaves alone. -/
theorem connect_same (e : EngineThreads) (port : UInt16) (speaks : Bool) :
    (e.connect port speaks).main = e.main ∧ (e.connect port speaks).receiver = e.receiver ∧
      (e.connect port speaks).feed = e.feed ∧ (e.connect port speaks).killed = e.killed ∧
      (∀ server, ((e.connect port speaks).listener server).thread = (e.listener server).thread ∧
        ((e.connect port speaks).listener server).port = (e.listener server).port) := by
  unfold connect
  split_ifs
  · exact ⟨rfl, rfl, rfl, rfl, fun server => by cases server <;> exact ⟨rfl, rfl⟩⟩
  · exact ⟨rfl, rfl, rfl, rfl, fun server => by cases server <;> exact ⟨rfl, rfl⟩⟩
  · exact ⟨rfl, rfl, rfl, rfl, fun server => ⟨rfl, rfl⟩⟩

/-- A connection. -/
theorem Inv.connected (inv : e.Inv args N) (port : UInt16) (speaks : Bool) :
    (e.connect port speaks).Inv args N := by
  obtain ⟨main, receiver, feed, killed, same⟩ := connect_same e port speaks
  have at_ := listener_connect inv.distinct port speaks
  have metrics := same .metrics
  have gateway := same .gateway
  have sound : ∀ server, ((e.connect port speaks).listener server).Sound (args.asked server) := by
    intro server
    obtain ⟨ports, listens⟩ := inv.sound server
    rw [at_ server]
    split_ifs
    · exact ⟨ports, listens⟩
    · exact ⟨ports, listens⟩
  have awake : ∀ poke ∈ (e.connect port speaks).poked args, 0 < poke → ∀ server,
      ((e.connect port speaks).listener server).port = some (UInt16.ofInt poke) →
      ((e.connect port speaks).listener server).thread = .accept →
        ((e.connect port speaks).listener server).backlog ≠ [] := by
    rw [poked, main]
    intro poke member positive server
    rw [at_ server]
    split_ifs
    · exact fun _ _ => List.append_ne_nil_of_right_ne_nil _ (List.cons_ne_nil _ _)
    · exact inv.awake poke member positive server
  exact {
    sound, awake
    feed := feed ▸ inv.feed
    unbroken := by rw [killed, poked, main]; exact inv.unbroken
    distinct := fun other here there =>
      inv.distinct other (metrics.2.symm.trans here) (gateway.2.symm.trans there)
    stopped := by rw [main, feed]; exact inv.stopped
    joined := by rw [main, receiver]; exact inv.joined
    left := by rw [main]; exact fun late => gateway.1.trans (inv.left late)
    started := gateway.1 ▸ inv.started
    opening := by rw [receiver]; exact fun early => metrics.1.trans (inv.opening early)
    running := by rw [receiver]; exact fun late => metrics.1 ▸ inv.running late
    drained := by rw [receiver, feed]; exact inv.drained
    ended := by
      rw [receiver, feed]
      exact fun late => (inv.ended late).imp metrics.1.trans (And.imp_left metrics.1.trans) }

/-- What `tcp_poke` does: nothing, a connection to a server, or the end of the engine. -/
theorem tcpPoke_cases (e : EngineThreads) (port : Int) (answered : Bool) :
    e.tcpPoke port answered = e ∧
        (0 < port → ¬ e.Listens (UInt16.ofInt port) ∧ UInt16.ofInt port ≠ 0) ∨
      e.tcpPoke port answered = e.connect (UInt16.ofInt port) true ∧ 0 < port ∧
        e.Listens (UInt16.ofInt port) ∨
      e.tcpPoke port answered = { e with killed := true } ∧ 0 < port ∧
        ¬ e.Listens (UInt16.ofInt port) ∧ (UInt16.ofInt port = 0 ∨ answered = false) := by
  unfold tcpPoke
  split_ifs with low listens other
  · exact .inl ⟨rfl, fun positive => absurd low (not_le.mpr positive)⟩
  · exact .inr (.inl ⟨rfl, not_le.mp low, listens⟩)
  · exact .inl ⟨rfl, fun _ => ⟨listens, other.2⟩⟩
  · refine .inr (.inr ⟨rfl, not_le.mp low, listens, ?_⟩)
    cases answered
    · exact .inr rfl
    · exact .inl (by simpa using other)

/-- A signal ends the engine. -/
theorem Inv.brokenPipe (inv : e.Inv args N) : Inv args N { e with killed := true } where
  feed := inv.feed
  sound := inv.sound
  distinct := inv.distinct
  awake := inv.awake
  unbroken := nofun
  stopped := inv.stopped
  joined := inv.joined
  left := inv.left
  started := inv.started
  opening := inv.opening
  running := inv.running
  drained := inv.drained
  ended := inv.ended

theorem Inv.tcpPoke (inv : e.Inv args N) (port : Int) (answered : Bool) :
    (e.tcpPoke port answered).Inv args N := by
  obtain ⟨same, -⟩ | ⟨same, -⟩ | ⟨same, -⟩ := tcpPoke_cases e port answered
  · rw [same]
    exact inv
  · rw [same]
    exact inv.connected _ true
  · rw [same]
    exact inv.brokenPipe

/-- No server listens on port 0. -/
theorem Inv.not_listens_zero (inv : e.Inv args N) : ¬ e.Listens 0 := by
  rintro (listens | listens)
  · exact ((inv.sound .metrics).port 0 listens).1 rfl
  · exact ((inv.sound .gateway).port 0 listens).1 rfl

theorem Listens.of_server {server : Server} {port : UInt16}
    (listens : (e.listener server).port = some port) :
    e.Listens port := by
  cases server
  · exact .inl listens
  · exact .inr listens

/-- A server that `tcp_poke` connects to has a connection to accept. -/
theorem awake_tcpPoke (distinct : e.Distinct) {port : Int} (answered : Bool) (positive : 0 < port)
    (server : Server)
    (listens : ((e.tcpPoke port answered).listener server).port = some (UInt16.ofInt port)) :
    ((e.tcpPoke port answered).listener server).backlog ≠ [] := by
  obtain ⟨same, free⟩ | ⟨same, -⟩ | ⟨same, -, free, -⟩ := tcpPoke_cases e port answered
  · rw [same] at listens
    exact absurd (Listens.of_server listens) (free positive).1
  · rw [same] at listens ⊢
    rw [listener_connect distinct]
    rw [((connect_same e _ true).2.2.2.2 server).2] at listens
    rw [if_pos listens]
    exact List.append_ne_nil_of_right_ne_nil _ (List.cons_ne_nil _ _)
  · rw [same] at listens
    exact absurd (Listens.of_server listens) free

theorem tcpPoke_same (e : EngineThreads) (port : Int) (answered : Bool) :
    (e.tcpPoke port answered).main = e.main ∧ (e.tcpPoke port answered).receiver = e.receiver ∧
      (e.tcpPoke port answered).feed = e.feed := by
  obtain ⟨same, -⟩ | ⟨same, -⟩ | ⟨same, -⟩ := tcpPoke_cases e port answered
  · rw [same]
    exact ⟨rfl, rfl, rfl⟩
  · obtain ⟨main, receiver, feed, -⟩ := connect_same e (UInt16.ofInt port) true
    rw [same]
    exact ⟨main, receiver, feed⟩
  · rw [same]
    exact ⟨rfl, rfl, rfl⟩

/-- An engine that goes on after `tcp_poke` has not connected to port 0. -/
theorem Inv.nonzero_of_tcpPoke (inv : e.Inv args N) {port : Int} {answered : Bool}
    (alive : (e.tcpPoke port answered).killed = false) :
    e.killed = false ∧ (0 < port → UInt16.ofInt port ≠ 0) := by
  obtain ⟨same, free⟩ | ⟨same, -, listens⟩ | ⟨same, -⟩ := tcpPoke_cases e port answered
  · exact ⟨same ▸ alive, fun positive => (free positive).2⟩
  · rw [same, (connect_same e _ true).2.2.2.1] at alive
    exact ⟨alive, fun _ zero => inv.not_listens_zero (zero ▸ listens)⟩
  · rw [same] at alive
    cases alive

/-- `main` goes on. -/
theorem Inv.goesOn (inv : e.Inv args N) {stage : MainThread} (stopped : e.feed.stop = true)
    (joined : stage = .joinGateway ∨ stage = .returned → e.receiver = .returned)
    (left : stage = .returned → (e.listener .gateway).thread = .returned)
    (awake : ∀ port ∈ poked args { e with main := stage }, 0 < port → ∀ server,
      (e.listener server).port = some (UInt16.ofInt port) → (e.listener server).thread = .accept →
        (e.listener server).backlog ≠ [])
    (unbroken : e.killed = false → ∀ port ∈ poked args { e with main := stage }, 0 < port →
      UInt16.ofInt port ≠ 0) :
    Inv args N { e with main := stage } where
  feed := inv.feed
  sound := inv.sound
  distinct := inv.distinct
  awake := awake
  unbroken := unbroken
  stopped := fun _ => stopped
  joined := joined
  left := left
  started := inv.started
  opening := inv.opening
  running := inv.running
  drained := inv.drained
  ended := inv.ended

theorem Inv.mainStep (inv : e.Inv args N) {answered : Bool}
    (stepped : e.mainStep args answered = some e') :
    e'.Inv args N := by
  have awake := inv.awake
  have unbroken := inv.unbroken
  unfold EngineThreads.mainStep at stepped
  unfold poked at awake unbroken
  cases at_ : e.main with
  | testStop =>
    rw [at_] at stepped
    cases stepped
    split_ifs with set
    · exact inv.goesOn set (by simp) (by simp) nofun nofun
    · rw [← at_]
      exact inv
  | pokeReceiver =>
    rw [at_] at stepped
    cases stepped
    exact inv.goesOn (inv.stopped (by simp [at_])) (by simp) (by simp) nofun nofun
  | pokeGateway =>
    rw [at_] at stepped
    cases stepped
    obtain ⟨main, receiver, feed⟩ := tcpPoke_same e args.gwPort answered
    refine (inv.tcpPoke args.gwPort answered).goesOn (feed ▸ inv.stopped (by simp [at_])) (by simp)
      (by simp) ?_ ?_
    · intro port member positive server listens _
      obtain rfl := List.mem_singleton.mp member
      exact awake_tcpPoke inv.distinct answered positive server listens
    · intro alive port member
      obtain rfl := List.mem_singleton.mp member
      exact (inv.nonzero_of_tcpPoke alive).2
  | pokeMetrics =>
    rw [at_] at stepped unbroken
    cases stepped
    obtain ⟨main, receiver, feed⟩ := tcpPoke_same e args.metricsPort answered
    have inv' := inv.tcpPoke args.metricsPort answered
    refine inv'.goesOn (feed ▸ inv.stopped (by simp [at_])) (by simp) (by simp) ?_ ?_
    · intro port member positive server listens waits
      obtain rfl | rfl := List.mem_pair.mp member
      · have first : args.gwPort ∈ (e.tcpPoke args.metricsPort answered).poked args := by
          rw [poked, main, at_]
          exact List.mem_singleton_self _
        exact inv'.awake _ first positive server listens waits
      · exact awake_tcpPoke inv.distinct answered positive server listens
    · intro alive port member
      obtain ⟨before, nonzero⟩ := inv.nonzero_of_tcpPoke alive
      obtain rfl | rfl := List.mem_pair.mp member
      · exact unbroken before _ (List.mem_singleton_self _)
      · exact nonzero
  | joinReceiver =>
    rw [at_] at stepped awake unbroken
    simp only at stepped
    split_ifs at stepped with done
    cases stepped
    exact inv.goesOn (inv.stopped (by simp [at_])) (fun _ => done) (by simp) awake unbroken
  | joinGateway =>
    rw [at_] at stepped awake unbroken
    simp only at stepped
    split_ifs at stepped with done
    cases stepped
    exact inv.goesOn (inv.stopped (by simp [at_])) (fun _ => inv.joined (.inl at_))
      (fun _ => done) awake
      unbroken
  | returned =>
    rw [at_] at stepped
    cases stepped

/-- The receiver opens its socket and file, and starts its threads. -/
theorem Inv.opened (inv : e.Inv args N) (early : e.receiver = .opening) :
    (({ e with receiver := .running } : EngineThreads).withListener .metrics
      { e.listener .metrics with thread := .bind }).Inv args N where
  feed := inv.feed
  sound := fun server => by
    cases server with
    | metrics => exact ⟨(inv.sound .metrics).port, fun _ => .inr (.inl rfl)⟩
    | gateway => exact inv.sound .gateway
  distinct := inv.distinct
  awake := fun port member positive server => by
    cases server with
    | metrics => exact fun _ waits => absurd waits (fun same => nomatch same)
    | gateway => exact inv.awake port member positive .gateway
  unbroken := inv.unbroken
  stopped := inv.stopped
  joined := fun late => by simp [inv.joined late] at early
  left := inv.left
  started := inv.started
  opening := by simp
  running := by simp
  drained := by simp
  ended := by simp

/-- It does not, and returns. -/
theorem Inv.gaveUp (inv : e.Inv args N) (early : e.receiver = .opening) :
    Inv args N { e with receiver := .returned } where
  feed := inv.feed
  sound := inv.sound
  distinct := inv.distinct
  awake := inv.awake
  unbroken := inv.unbroken
  stopped := inv.stopped
  joined := fun _ => rfl
  left := inv.left
  started := inv.started
  opening := by simp
  running := by simp
  drained := by simp
  ended := fun _ => .inl (inv.opening early)

theorem Inv.joinStep (inv : e.Inv args N) (stepped : e.joinStep = some e') : e'.Inv args N := by
  have unjoined : e.receiver ≠ .returned → ¬ (e.main = .joinGateway ∨ e.main = .returned) :=
    fun early late => early (inv.joined late)
  unfold EngineThreads.joinStep at stepped
  cases at_ : e.receiver with
  | opening | returned =>
    rw [at_] at stepped
    cases stepped
  | running =>
    rw [at_] at stepped
    simp only at stepped
    split_ifs at stepped with done
    cases stepped
    exact {
      feed := inv.feed, sound := inv.sound, distinct := inv.distinct, awake := inv.awake
      unbroken := inv.unbroken
      stopped := inv.stopped, left := inv.left, started := inv.started
      joined := fun late => absurd late (unjoined (by simp [at_]))
      opening := by simp
      running := fun _ => inv.running (.inl at_)
      drained := fun _ => done.2
      ended := by simp }
  | joinMetrics =>
    rw [at_] at stepped
    simp only at stepped
    split_ifs at stepped with done
    cases stepped
    exact {
      feed := inv.feed, sound := inv.sound, distinct := inv.distinct, awake := inv.awake
      unbroken := inv.unbroken
      stopped := inv.stopped, left := inv.left, started := inv.started
      joined := fun _ => rfl
      opening := by simp
      running := by simp
      drained := by simp
      ended := fun _ => .inr ⟨done, inv.drained at_⟩ }

theorem Inv.signalled (inv : e.Inv args N) :
    Inv args N { e with feed := { e.feed with stop := true } } :=
  inv.fed (a := .requestStop) rfl

theorem Inv.feedStep (inv : e.Inv args N) {a : FeedStep} (stepped : e.feedStep a = some e') :
    e'.Inv args N := by
  obtain ⟨feed, moved, rfl⟩ := feedStep_cases stepped
  exact inv.fed moved

/-- A step. -/
theorem inv_step (inv : e.Inv args N) {a : ThreadStep} (stepped : e.step args a = some e') :
    e'.Inv args N := by
  replace stepped := (act_of_step stepped).2
  cases a with
  | interrupt on =>
    cases on with
    | none =>
      cases stepped
      exact inv.signalled
    | some server =>
      cases stepped
      rcases Listener.moves_of_interrupted server (args.asked server) true (e.listener server)
        with same | moves
      · rw [same]
        exact (withListener_same { e with feed := { e.feed with stop := true } } server).symm ▸
          inv.signalled
      · exact inv.signalled.moved moves fun port bound => .inl (by simpa using bound)
  | brokenPipe =>
    cases stepped
    exact inv.brokenPipe
  | connect port peer =>
    cases stepped
    exact inv.connected port peer
  | acceptFails server =>
    simp only [act] at stepped
    split_ifs at stepped with waits
    cases stepped
    exact inv.moved (.left (.inr (.inl waits))) (by simp [Listener.closed])
  | openFails =>
    simp only [act] at stepped
    split_ifs at stepped with early
    cases stepped
    exact inv.gaveUp early
  | «open» =>
    simp only [act] at stepped
    split_ifs at stepped with early
    cases stepped
    exact inv.opened early
  | main answered => exact inv.mainStep stepped
  | push events | receiver | consumer => exact inv.feedStep stepped
  | join => exact inv.joinStep stepped
  | bind server given =>
    simp only [act] at stepped
    split_ifs at stepped with may
    cases stepped
    cases given with
    | none => exact inv.moved (.left (.inl may.1)) (by simp [Listener.closed])
    | some port =>
      obtain ⟨nonzero, same, free⟩ := may.2 port rfl
      refine inv.moved (.bound port may.1 nonzero same) fun other bound => ?_
      cases bound
      exact .inr free
  | server server =>
    obtain ⟨l, moved, rfl⟩ := Option.map_eq_some_iff.mp stepped
    exact inv.moved (Listener.moves_of_step moved) fun port bound =>
      .inl (Listener.port_of_step moved bound)

/-- A step of the engine on a server that no peer waits for in silence leaves it so. -/
theorem spoken_step (spoken : ∀ server, (e.listener server).Spoken) (inv : e.Inv args N)
    {a : ThreadStep} (speaks : a.Speaks) (stepped : e.step args a = some e') :
    ∀ server, (e'.listener server).Spoken := by
  have moved : ∀ {server l}, l.Spoken →
      ∀ other, ((e.withListener server l).listener other).Spoken := by
    intro server l spoken' other
    by_cases same : other = server
    · subst same
      rwa [withListener_self]
    · rw [withListener_ne _ _ _ same]
      exact spoken other
  have connected : ∀ port server, ((e.connect port true).listener server).Spoken := by
    intro port server
    rw [listener_connect inv.distinct]
    split_ifs
    · exact ⟨by simp [Listener.connected, (spoken server).pending], (spoken server).heard⟩
    · exact spoken server
  have poked : ∀ port answered server, ((e.tcpPoke port answered).listener server).Spoken := by
    intro port answered
    obtain ⟨same, -⟩ | ⟨same, -⟩ | ⟨same, -⟩ := tcpPoke_cases e port answered
    · rw [same]
      exact spoken
    · rw [same]
      exact connected _
    · rw [same]
      exact spoken
  replace stepped := (act_of_step stepped).2
  cases a with
  | interrupt on =>
    cases on with
    | none =>
      cases stepped
      exact spoken
    | some server =>
      cases stepped
      refine moved ?_
      rcases Listener.moves_of_interrupted server 0 true (e.listener server) with same | moves
      · rw [same]
        exact spoken server
      · exact moves.spoken (spoken server)
  | brokenPipe =>
    cases stepped
    exact spoken
  | connect port peer =>
    obtain rfl : peer = true := speaks
    cases stepped
    exact connected port
  | acceptFails server =>
    simp only [act] at stepped
    split_ifs at stepped
    cases stepped
    exact moved ⟨by simp [Listener.closed], by simp [Listener.closed]⟩
  | openFails =>
    simp only [act] at stepped
    split_ifs at stepped
    cases stepped
    exact spoken
  | «open» =>
    simp only [act] at stepped
    split_ifs at stepped
    cases stepped
    exact moved ⟨(spoken .metrics).pending, by simp⟩
  | main answered =>
    obtain ⟨stage, rfl | ⟨port, -, rfl⟩⟩ := mainStep_cases stepped
    · exact spoken
    · exact poked port answered
  | push | receiver | consumer =>
    obtain ⟨feed, -, rfl⟩ := feedStep_cases stepped
    exact spoken
  | join =>
    obtain ⟨stage, rfl⟩ := joinStep_cases stepped
    exact spoken
  | bind server given =>
    simp only [act] at stepped
    split_ifs at stepped
    cases stepped
    cases given <;> exact moved ⟨by simp [Listener.closed], by simp [Listener.closed]⟩
  | server server =>
    obtain ⟨l, moves, rfl⟩ := Option.map_eq_some_iff.mp stepped
    have moves : (e.listener server).Moves server 0 e.feed.stop l := Listener.moves_of_step moves
    exact moved (moves.spoken (spoken server))

theorem spoken_start (queue : SpscQueue Event) :
    ∀ server, ((start queue).listener server).Spoken := by
  intro server
  cases server <;> exact ⟨by simp [start, Listener.initial], by simp [start, Listener.initial]⟩

theorem inv_start {queue : SpscQueue Event} (holds : queue.Represents 0 [] [])
    (open_ : queue.shutdown = false) :
    (start queue).Inv args queue.capacity.toNat where
  feed := Feed.inv_start holds open_
  sound := fun server => by
    cases server <;> exact ⟨by simp [start, Listener.initial], by simp [start, Listener.initial]⟩
  distinct := by simp [Distinct, start, Listener.initial]
  awake := by simp [start, poked]
  unbroken := by simp [start, poked]
  stopped := fun late => absurd rfl late
  joined := by simp [start]
  left := by simp [start]
  started := by simp [start, Listener.initial]
  opening := fun _ => rfl
  running := by simp [start]
  drained := by simp [start]
  ended := by simp [start]

end EngineThreads

end EtradePipeline
