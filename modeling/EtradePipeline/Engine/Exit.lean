import EtradePipeline.Engine.Wakeups

/-! The end of the engine.  After the stop flag is set its threads return or `SIGPIPE` ends them,
when `wake_services` connects to the ports that the two servers listen on and no peer of the metrics
server stays silent, and else they may wait for ever. -/

namespace EtradePipeline

open Kit.Transition

/-! ### The steps that are left -/

/-- How far a thread is from its end once the stop flag is set. -/
def MainThread.rank : MainThread → Nat
  | .testStop => 6
  | .pokeReceiver => 5
  | .pokeGateway => 4
  | .pokeMetrics => 3
  | .joinReceiver => 2
  | .joinGateway => 1
  | .returned => 0

def ReceiverStage.rank : ReceiverStage → Nat
  | .opening => 3
  | .running => 2
  | .joinMetrics => 1
  | .returned => 0

def ServerThread.rank : ServerThread → Nat
  | .notStarted => 5
  | .bind => 4
  | .accept => 3
  | .recv _ => 2
  | .testStop => 1
  | .returned => 0

/-- The receiver may still push as many events as the queue has room for. -/
def ReceiverThread.rank (N : Nat) : ReceiverThread → Nat
  | .receive => 2 * N + 5
  | .count .. => 4
  | .testStop => 3
  | .notifyShutdown => 2
  | .storeStop => 1
  | .returned => 0

/-- Beside two for each event that the consumer has yet to apply. -/
def ConsumerThread.rank : ConsumerThread → Nat
  | .pop => 4
  | .apply _ | .testShutdown => 3
  | .testEmpty => 2
  | .testStop => 1
  | .returned => 0

namespace Feed

variable {book : OrderBook} {N : Nat} {f f' : Feed} {a : FeedStep}

/-- The events that are accepted and not applied. -/
def behind (f : Feed) : Nat := f.accepted.length - f.applied.length

def rank (N : Nat) (f : Feed) : Nat := 2 * f.behind + f.receiver.rank N + f.consumer.rank

theorem Inv.behind_le (inv : f.Inv book N) : f.behind ≤ N ∧ f.inHand.length ≤ f.behind := by
  obtain ⟨items, ⟨rfl, first, holds⟩, same⟩ := inv.accounts
  have room := holds.room
  have hand : f.inHand.length ≤ 1 := by
    unfold inHand
    split <;> simp
  have length := congrArg List.length same
  simp only [List.length_append, List.length_nil] at length room
  unfold behind
  omega

/-- Once the stop flag is set, every step brings the feed nearer to its end. -/
theorem rank_step (inv : f.Inv book N) (stop : f.stop = true) (inside : a ≠ .requestStop)
    (stepped : f.step a = some f') : f'.rank N + 1 ≤ f.rank N := by
  have after := (inv_step inv stepped).behind_le
  have before := inv.behind_le
  unfold rank
  cases steps_of_step stepped with
  | requested => exact absurd rfl inside
  | timedOut events at_ =>
    rw [at_]
    simp only [ReceiverThread.rank, behind]
    omega
  | pushed events at_ =>
    rw [at_]
    simp only [ReceiverThread.rank] at after ⊢
    omega
  | continued at_ clear | entered at_ clear => simp [stop] at clear
  | sawStop at_ | counted _ _ at_ | notified at_ | stopped at_ =>
    rw [at_]
    simp only [ReceiverThread.rank, behind]
    omega
  | leftAtHead at_ | popped _ at_ | foundNone at_ | sawShutdown at_ | leftAtBottom at_ =>
    rw [at_]
    simp only [ConsumerThread.rank, behind]
    omega
  | applied ev at_ =>
    rw [inHand, at_, List.length_singleton] at before
    rw [at_]
    simp only [ConsumerThread.rank, behind, List.length_append, List.length_singleton] at before ⊢
    omega
  | looped at_ =>
    obtain at_ | at_ := at_
    · rw [at_]
      simp only [ConsumerThread.rank, behind]
      omega
    · rw [at_]
      simp only [ConsumerThread.rank, behind]
      omega

end Feed

namespace Listener

theorem Moves.rank {server : Server} {asked : UInt16} {l l' : Listener}
    (moves : l.Moves server asked true l') : l'.thread.rank + 1 ≤ l.thread.rank := by
  cases moves with
  | left early => obtain at_ | at_ | ⟨at_, -⟩ := early <;> simp [at_, closed, ServerThread.rank]
  | bound port at_ => simp [at_, ServerThread.rank]
  | waited at_ clear => cases clear
  | accepted speaks backlog at_ next => cases server <;> simp [at_, ServerThread.rank]
  | woken at_ => obtain at_ | ⟨speaks, at_⟩ := at_ <;> simp [at_, ServerThread.rank]

end Listener

namespace EngineThreads

variable {args : EngineArgs} {N : Nat} {e e' : EngineThreads}

/-- The steps that are left. -/
def rank (N : Nat) (e : EngineThreads) : Nat :=
  e.main.rank + e.receiver.rank + e.feed.rank N + (e.listener .metrics).thread.rank +
    (e.listener .gateway).thread.rank

theorem rank_moved {server : Server} {l : Listener} {n : Nat}
    (lower : l.thread.rank + n ≤ (e.listener server).thread.rank) :
    (e.withListener server l).rank N + n ≤ e.rank N := by
  unfold rank
  cases server
  · rw [withListener_self, withListener_ne _ _ _ (by decide), withListener_main,
      withListener_receiver, withListener_feed]
    omega
  · rw [withListener_self, withListener_ne _ _ _ (by decide), withListener_main,
      withListener_receiver, withListener_feed]
    omega

theorem rank_connect (e : EngineThreads) (port : UInt16) (speaks : Bool) :
    (e.connect port speaks).rank N = e.rank N := by
  obtain ⟨main, receiver, feed, -, same⟩ := connect_same e port speaks
  rw [rank, main, receiver, feed, (same .metrics).1, (same .gateway).1, rank]

theorem rank_tcpPoke (e : EngineThreads) (port : Int) (answered : Bool) :
    (e.tcpPoke port answered).rank N = e.rank N := by
  obtain ⟨same, -⟩ | ⟨same, -⟩ | ⟨same, -⟩ := tcpPoke_cases e port answered
  · rw [same]
  · rw [same, rank_connect]
  · rw [same]
    rfl

theorem rank_goesOn {stage : MainThread} (lower : stage.rank + 1 ≤ e.main.rank) :
    rank N { e with main := stage } + 1 ≤ e.rank N := by
  simp only [rank]
  omega

theorem rank_mainStep (stop : e.feed.stop = true) {answered : Bool}
    (stepped : e.mainStep args answered = some e') : e'.rank N + 1 ≤ e.rank N := by
  unfold mainStep at stepped
  cases at_ : e.main with
  | testStop =>
    rw [at_, stop] at stepped
    cases stepped
    exact rank_goesOn (by simp [at_, MainThread.rank])
  | pokeReceiver =>
    rw [at_] at stepped
    cases stepped
    exact rank_goesOn (by simp [at_, MainThread.rank])
  | pokeGateway =>
    rw [at_] at stepped
    cases stepped
    rw [← rank_tcpPoke e args.gwPort answered]
    exact rank_goesOn (by simp [(tcpPoke_same e _ _).1, at_, MainThread.rank])
  | pokeMetrics =>
    rw [at_] at stepped
    cases stepped
    rw [← rank_tcpPoke e args.metricsPort answered]
    exact rank_goesOn (by simp [(tcpPoke_same e _ _).1, at_, MainThread.rank])
  | joinReceiver | joinGateway =>
    rw [at_] at stepped
    simp only at stepped
    split_ifs at stepped
    cases stepped
    exact rank_goesOn (by simp [at_, MainThread.rank])
  | returned =>
    rw [at_] at stepped
    cases stepped

theorem rank_joinStep (stepped : e.joinStep = some e') : e'.rank N + 1 ≤ e.rank N := by
  unfold joinStep at stepped
  cases at_ : e.receiver with
  | opening | returned =>
    rw [at_] at stepped
    cases stepped
  | running | joinMetrics =>
    rw [at_] at stepped
    simp only at stepped
    split_ifs at stepped
    cases stepped
    simp only [rank, at_, ReceiverStage.rank]
    omega

theorem rank_feedStep (inv : e.Inv args N) (stop : e.feed.stop = true) {a : FeedStep}
    (inside : a ≠ .requestStop) (stepped : e.feedStep a = some e') : e'.rank N + 1 ≤ e.rank N := by
  obtain ⟨feed, moved, rfl⟩ := feedStep_cases stepped
  have lower := Feed.rank_step inv.feed stop inside moved
  simp only [rank]
  omega

/-- Once the stop flag is set, every step of the engine brings it nearer to its end, and no signal,
connection or failure takes it back. -/
theorem rank_step (inv : e.Inv args N) (stop : e.feed.stop = true) {a : ThreadStep}
    (stepped : e.step args a = some e') : e'.rank N + (if a.own then 1 else 0) ≤ e.rank N := by
  replace stepped := (act_of_step stepped).2
  cases a with
  | interrupt on =>
    have same : rank N { e with feed := { e.feed with stop := true } } = e.rank N := rfl
    cases on with
    | none =>
      cases stepped
      exact same.le
    | some server =>
      cases stepped
      rw [← same]
      refine rank_moved (n := 0) ?_
      rcases Listener.moves_of_interrupted server 0 true (e.listener server) with kept | moves
      · exact (congrArg (fun l => l.thread.rank) kept).le
      · exact le_trans (Nat.le_succ _) moves.rank
  | brokenPipe =>
    cases stepped
    exact le_refl (e.rank N)
  | connect port peer =>
    cases stepped
    exact (rank_connect e port peer).le
  | acceptFails server =>
    simp only [act] at stepped
    split_ifs at stepped with waits
    cases stepped
    exact rank_moved (n := 0) (Nat.zero_le _)
  | openFails =>
    simp only [act] at stepped
    split_ifs at stepped with early
    cases stepped
    simp only [rank, early, ReceiverStage.rank, ThreadStep.own, Bool.false_eq_true, if_false]
    omega
  | «open» =>
    simp only [act] at stepped
    split_ifs at stepped with early
    cases stepped
    have fewer : rank N (({ e with receiver := .running } : EngineThreads).withListener .metrics
        { e.listener .metrics with thread := .bind }) + 1 ≤
          rank N { e with receiver := .running } :=
      rank_moved (by simp [inv.opening early, ServerThread.rank])
    simp only [rank, early, ReceiverStage.rank, ThreadStep.own, if_true] at fewer ⊢
    omega
  | main answered => exact rank_mainStep stop stepped
  | push events => exact rank_feedStep inv stop (by simp) stepped
  | receiver | consumer => exact rank_feedStep inv stop (by simp) stepped
  | join => exact rank_joinStep stepped
  | bind server given =>
    simp only [act] at stepped
    split_ifs at stepped with may
    cases stepped
    refine rank_moved (n := 1) ?_
    rw [may.1]
    cases given <;> simp [Listener.closed, ServerThread.rank]
  | server server =>
    obtain ⟨l, moved, rfl⟩ := Option.map_eq_some_iff.mp stepped
    rw [stop] at moved
    have moves : (e.listener server).Moves server 0 true l := Listener.moves_of_step moved
    exact rank_moved moves.rank

/-! ### Where no step is enabled -/

/-- A server that is woken has returned, or has never been started. -/
theorem Inv.server_returned (inv : e.Inv args N) (spoken : ∀ server, (e.listener server).Spoken)
    (wakes : args.Wakes) (waits : ∀ a, a.own = true → e.act args a = none)
    (poked : e.poked args = [args.gwPort, args.metricsPort]) (server : Server) :
    (e.listener server).thread = .notStarted ∨ (e.listener server).thread = .returned := by
  obtain ⟨port, listens⟩ := inv.sound server
  have idle := waits (.server server) rfl
  simp only [act, Option.map_eq_none_iff, Listener.step] at idle
  cases at_ : (e.listener server).thread with
  | notStarted => exact .inl rfl
  | returned => exact .inr rfl
  | bind =>
    have bound := waits (.bind server none) rfl
    simp [act, at_, MayBind] at bound
  | testStop => simp [at_] at idle
  | recv speaks =>
    cases speaks with
    | true => simp [at_] at idle
    | false => exact absurd at_ (spoken server).heard
  | accept =>
    obtain ⟨p, bound⟩ : ∃ p, (e.listener server).port = some p :=
      Option.ne_none_iff_exists'.mp fun none => by simpa [at_] using listens none
    obtain ⟨nonzero, wake⟩ := wakes server
    obtain rfl := (port p bound).2.resolve_left nonzero
    have pending : (e.listener server).backlog ≠ [] := by
      obtain ⟨positive, same⟩ | ⟨positive, same⟩ := wake
      · exact inv.awake _ (poked ▸ List.mem_cons_self) positive server (same ▸ bound) at_
      · exact inv.awake _ (poked ▸ List.mem_cons_of_mem _ List.mem_cons_self) positive server
          (same ▸ bound) at_
    rw [at_] at idle
    cases next : (e.listener server).backlog with
    | nil => exact absurd next pending
    | cons speaks backlog =>
      rw [next] at idle
      cases server <;> cases idle

/-- A feed none of whose steps is enabled is at its end. -/
theorem feed_returned {f : Feed} (idle : ∀ a, a ≠ .requestStop → f.step a = none) :
    f.receiver = .returned ∧ f.consumer = .returned := by
  have push := idle (.push ⟨[], by decide⟩) (by simp)
  have receiver := idle .receiver (by simp)
  have consumer := idle .consumer (by simp)
  simp only [Feed.step] at push receiver consumer
  constructor
  · cases at_ : f.receiver with
    | returned => rfl
    | receive => simp [Feed.push, at_] at push
    | testStop | count | notifyShutdown | storeStop => simp [Feed.receiverStep, at_] at receiver
  · cases at_ : f.consumer with
    | returned => rfl
    | pop =>
      rw [Feed.consumerStep, at_] at consumer
      rcases item : f.queue.pop with ⟨_ | ev, queue⟩ <;> simp [item] at consumer
    | testStop | apply | testShutdown | testEmpty => simp [Feed.consumerStep, at_] at consumer

/-- The receiver's thread has returned when the metrics server has. -/
theorem Inv.receiver_returned (inv : e.Inv args N) (waits : ∀ a, a.own = true → e.act args a = none)
    (metrics : (e.listener .metrics).thread = .notStarted ∨
      (e.listener .metrics).thread = .returned) :
    e.receiver = .returned := by
  have join := waits .join rfl
  simp only [act, EngineThreads.joinStep] at join
  cases at_ : e.receiver with
  | returned => rfl
  | opening =>
    have opens := waits .open rfl
    simp [act, at_] at opens
  | joinMetrics =>
    have returned := metrics.resolve_left (inv.running (.inr at_))
    simp [at_, returned] at join
  | running =>
    have returned := metrics.resolve_left (inv.running (.inl at_))
    have idle : ∀ a, a ≠ .requestStop → e.feed.step a = none := by
      intro a inside
      have own : e.feedStep a = none := by
        cases a with
        | requestStop => exact absurd rfl inside
        | push events => exact waits (.push events) rfl
        | receiver => exact waits .receiver rfl
        | consumer => exact waits .consumer rfl
      rw [EngineThreads.feedStep, returned] at own
      exact Option.map_eq_none_iff.mp own
    simp [at_, feed_returned idle] at join

theorem act_of_waits (waits : e.Waits args) (alive : e.killed = false) :
    ∀ a, a.own = true → e.act args a = none := by
  intro a own
  have idle := waits a own
  rwa [step, if_neg (by simp [alive])] at idle

/-- `main` has connected to both ports when the engine has no step left. -/
theorem poked_of_waits (waits : ∀ a, a.own = true → e.act args a = none) :
    e.poked args = [args.gwPort, args.metricsPort] := by
  have main := waits (.main true) rfl
  simp only [act, EngineThreads.mainStep] at main
  unfold EngineThreads.poked
  cases at_ : e.main <;> simp [at_] at main <;> rfl

/-- An engine that has no step left has not connected to port 0, or has been ended. -/
theorem Inv.not_breaks (inv : e.Inv args N) (waits : e.Waits args) (alive : e.killed = false) :
    ¬ args.Breaks := by
  rintro ⟨port, member, positive, zero⟩
  rw [← poked_of_waits (act_of_waits waits alive)] at member
  exact inv.unbroken alive port member positive zero

/-- An engine whose servers are woken and that has no step left has exited, or has been ended. -/
theorem Inv.exited (inv : e.Inv args N) (spoken : ∀ server, (e.listener server).Spoken)
    (wakes : args.Wakes) (waits : e.Waits args) (alive : e.killed = false) : e.Exited := by
  replace waits := act_of_waits waits alive
  have servers := inv.server_returned spoken wakes waits (poked_of_waits waits)
  have receiver := inv.receiver_returned waits (servers .metrics)
  have gateway := (servers .gateway).resolve_left inv.started
  refine ⟨?_, receiver, gateway, inv.ended receiver, alive⟩
  have main := waits (.main true) rfl
  simp only [act, EngineThreads.mainStep] at main
  cases at_ : e.main <;> simp [at_, receiver, gateway] at main
  rfl

/-! ### A server that is not woken -/

/-- The server waits for a peer that stays silent, or on a port that `wake_services` does not
connect to. -/
def Forsaken (args : EngineArgs) (e : EngineThreads) (server : Server) : Prop :=
  (e.listener server).thread = .recv false ∨
    (e.listener server).thread = .accept ∧ (e.listener server).backlog = [] ∧
      ∃ port, port ≠ 0 ∧ (e.listener server).port = some port ∧ ¬ args.Pokes port

theorem Forsaken.connect {server : Server} (forsaken : e.Forsaken args server)
    (distinct : e.Distinct) {port : UInt16} (pokes : port ≠ 0 → args.Pokes port) :
    (e.connect port true).Forsaken args server := by
  rw [Forsaken, listener_connect distinct]
  split_ifs with reached
  · obtain hears | ⟨-, -, other, nonzero, bound, unpoked⟩ := forsaken
    · exact .inl hears
    · obtain rfl := Option.some.inj (bound.symm.trans reached)
      exact absurd (pokes nonzero) unpoked
  · exact forsaken

/-- The calls of `tcp_poke`. -/
theorem Forsaken.tcpPoke {server : Server} (forsaken : e.Forsaken args server)
    (distinct : e.Distinct)
    {port : Int} (member : port ∈ [args.gwPort, args.metricsPort]) (answered : Bool) :
    (e.tcpPoke port answered).Forsaken args server := by
  obtain ⟨same, -⟩ | ⟨same, positive, -⟩ | ⟨same, -⟩ := tcpPoke_cases e port answered
  · rw [same]
    exact forsaken
  · rw [same]
    refine forsaken.connect distinct fun nonzero => ⟨nonzero, ?_⟩
    obtain rfl | rfl := List.mem_pair.mp member
    · exact .inl ⟨positive, rfl⟩
    · exact .inr ⟨positive, rfl⟩
  · rw [same]
    exact forsaken

theorem Forsaken.not_moves {server : Server} (forsaken : e.Forsaken args server) (stop : Bool) :
    (e.listener server).step server stop = none := by
  obtain hears | ⟨waits, alone, -⟩ := forsaken
  · simp [Listener.step, hears]
  · simp [Listener.step, waits, alone]

/-- No step of the engine wakes the server. -/
theorem Forsaken.step {server : Server} (forsaken : e.Forsaken args server) (inv : e.Inv args N)
    {a : ThreadStep} (own : a.own = true) (stepped : e.step args a = some e') :
    e'.Forsaken args server := by
  replace stepped := (act_of_step stepped).2
  have waiting : (e.listener server).thread ≠ .notStarted ∧ (e.listener server).thread ≠ .bind := by
    obtain hears | ⟨waits, -⟩ := forsaken
    · simp [hears]
    · simp [waits]
  have others : ∀ {other l}, other ≠ server → (e.withListener other l).Forsaken args server := by
    intro other l ne
    rw [Forsaken, withListener_ne _ _ _ ne.symm]
    exact forsaken
  cases a with
  | interrupt | brokenPipe | connect | acceptFails | openFails => cases own
  | «open» =>
    simp only [act] at stepped
    split_ifs at stepped with early
    cases stepped
    refine others fun same => ?_
    subst same
    exact waiting.1 (inv.opening early)
  | main answered =>
    obtain ⟨stage, rfl | ⟨port, member, rfl⟩⟩ := mainStep_cases stepped
    · exact forsaken
    · exact forsaken.tcpPoke inv.distinct member answered
  | push | receiver | consumer =>
    obtain ⟨feed, -, rfl⟩ := feedStep_cases stepped
    exact forsaken
  | join =>
    obtain ⟨stage, rfl⟩ := joinStep_cases stepped
    exact forsaken
  | bind other given =>
    simp only [act] at stepped
    split_ifs at stepped with may
    cases stepped
    refine others fun same => ?_
    subst same
    exact waiting.2 may.1
  | server other =>
    obtain ⟨l, moved, rfl⟩ := Option.map_eq_some_iff.mp stepped
    refine others fun same => ?_
    subst same
    rw [forsaken.not_moves] at moved
    cases moved

/-- An engine with a forsaken server has not exited. -/
theorem Forsaken.not_exited {server : Server} (forsaken : e.Forsaken args server) : ¬ e.Exited := by
  intro exited
  have returned : (e.listener server).thread = .notStarted ∨
      (e.listener server).thread = .returned := by
    cases server
    · exact exited.metrics.imp_right And.left
    · exact .inr exited.gateway
  obtain hears | ⟨waits, -⟩ := forsaken
  · simp [hears] at returned
  · simp [waits] at returned

/-! ### Runs -/

/-- The most steps that may be left. -/
theorem Inv.rank_le (inv : e.Inv args N) : e.rank N ≤ 4 * N + 28 := by
  have behind := inv.feed.behind_le.1
  have main : e.main.rank ≤ 6 := by cases e.main <;> decide
  have stage : e.receiver.rank ≤ 3 := by cases e.receiver <;> decide
  have server : ∀ t : ServerThread, t.rank ≤ 5 := fun t => by cases t <;> simp [ServerThread.rank]
  have metrics := server (e.listener .metrics).thread
  have gateway := server (e.listener .gateway).thread
  have receiver : e.feed.receiver.rank N ≤ 2 * N + 5 := by
    cases e.feed.receiver <;> simp [ReceiverThread.rank]
  have consumer : e.feed.consumer.rank ≤ 4 := by
    cases e.feed.consumer <;> simp [ConsumerThread.rank]
  simp only [rank, Feed.rank]
  omega

/-- A stop flag that is set stays so. -/
theorem stop_step (stop : e.feed.stop = true) {a : ThreadStep} (stepped : e.step args a = some e') :
    e'.feed.stop = true := by
  replace stepped := (act_of_step stepped).2
  cases a with
  | interrupt on => cases on <;> cases stepped <;> rfl
  | brokenPipe =>
    cases stepped
    exact stop
  | connect port peer =>
    cases stepped
    rw [(connect_same e port peer).2.2.1]
    exact stop
  | push | receiver | consumer =>
    obtain ⟨feed, moved, rfl⟩ := feedStep_cases stepped
    exact (feed_keeps moved).1 stop
  | main answered =>
    obtain ⟨stage, rfl | ⟨port, -, rfl⟩⟩ := mainStep_cases stepped
    · exact stop
    · rw [← stop, ← (tcpPoke_same e port answered).2.2]
  | join =>
    obtain ⟨stage, rfl⟩ := joinStep_cases stepped
    exact stop
  | acceptFails | openFails | «open» | bind =>
    simp only [act] at stepped
    split_ifs at stepped
    cases stepped
    exact stop
  | server server =>
    obtain ⟨l, moved, rfl⟩ := Option.map_eq_some_iff.mp stepped
    exact stop

/-- The steps of the engine after its stop flag is set. -/
theorem descends (args : EngineArgs) (N : Nat) :
    Descends (step args) (fun _ => True) (fun e => e.Inv args N ∧ e.feed.stop = true) ThreadStep.own
      (rank N) where
  keeps _ _ _ inv _ stepped := ⟨inv_step inv.1 stepped, stop_step inv.2 stepped⟩
  admits _ _ := trivial
  falls _ _ _ inv stepped := rank_step inv.1 inv.2 stepped

/-- A step on which no `send` raises `SIGPIPE` leaves the engine alive, but for a connection to port
0. -/
theorem alive_step (safe : ¬ args.Breaks) {a : ThreadStep} (answered : a.answered = true)
    (stepped : e.step args a = some e') : e'.killed = false := by
  obtain ⟨alive, stepped⟩ := act_of_step stepped
  cases a with
  | interrupt on => cases on <;> cases stepped <;> exact alive
  | brokenPipe => cases answered
  | connect port peer =>
    cases stepped
    exact (connect_same e port peer).2.2.2.1.trans alive
  | push | receiver | consumer =>
    obtain ⟨feed, -, rfl⟩ := feedStep_cases stepped
    exact alive
  | main answered' =>
    obtain rfl : answered' = true := answered
    obtain ⟨stage, rfl | ⟨port, member, rfl⟩⟩ := mainStep_cases stepped
    · exact alive
    · obtain ⟨same, -⟩ | ⟨same, -⟩ | ⟨same, positive, -, zero⟩ := tcpPoke_cases e port true
      · rw [same]
        exact alive
      · rw [same]
        exact (connect_same e _ true).2.2.2.1.trans alive
      · exact absurd ⟨port, member, positive, zero.resolve_right (by simp)⟩ safe
  | join =>
    obtain ⟨stage, rfl⟩ := joinStep_cases stepped
    exact alive
  | acceptFails | openFails | «open» | bind =>
    simp only [act] at stepped
    split_ifs at stepped
    cases stepped
    exact alive
  | server server =>
    obtain ⟨l, moved, rfl⟩ := Option.map_eq_some_iff.mp stepped
    exact alive

/-- Whether `main` goes on does not depend on who answers it. -/
theorem waits_of_answered (stuck : Stuck (step args) (fun a => a.own && a.answered) e) :
    e.Waits args := by
  intro a own
  cases a with
  | main answered =>
    have idle := stuck (.main true) rfl
    unfold step at idle ⊢
    split_ifs at idle ⊢ with killed
    · rfl
    · simp only [act, mainStep] at idle ⊢
      cases at_ : e.main <;> simp [at_] at idle ⊢ <;> exact idle
  | interrupt | brokenPipe | connect | acceptFails | openFails => cases own
  | «open» | push | receiver | consumer | join | bind | server => exact stuck _ rfl

/-- Once the stop flag is set, the engine comes to where no step is left, and keeps on its way what
its own steps keep on which no `send` raises `SIGPIPE`. -/
theorem Inv.exists_waits {I : EngineThreads → Prop} (inv : e.Inv args N) (stop : e.feed.stop = true)
    (first : I e)
    (keeps : ∀ (e : EngineThreads) a e', e.Inv args N → I e → a.own = true → a.answered = true →
      e.step args a = some e' → I e') :
    ∃ as e', (∀ a ∈ as, a.own = true ∧ a.answered = true) ∧
      run (EngineThreads.step args) e as = some e' ∧ e'.Waits args ∧ I e' := by
  have each : ∀ {a : ThreadStep}, (a.own && a.answered) = true → a.own = true ∧ a.answered = true :=
    fun mine => by simpa using mine
  have d : Descends (EngineThreads.step args) (fun a => (a.own && a.answered) = true)
      (fun e => (e.Inv args N ∧ e.feed.stop = true) ∧ I e) (fun a => a.own && a.answered)
        (rank N) := {
    keeps := fun e a e' held mine stepped =>
      ⟨(descends args N).keeps _ _ _ held.1 trivial stepped,
        keeps e a e' held.1.1 held.2 (each mine).1 (each mine).2 stepped⟩
    admits := fun _ mine => mine
    falls := fun _ a _ held stepped => by
      have falls := (descends args N).falls _ _ _ held.1 stepped
      have fewer : (if (a.own && a.answered) = true then 1 else 0) ≤
          if a.own = true then 1 else 0 := by
        cases a.own <;> cases a.answered <;> simp
      omega }
  obtain ⟨as, e', mine, ran, stuck⟩ := d.exists_stuck ⟨⟨inv, stop⟩, first⟩
  exact ⟨as, e', fun a member => each (mine a member), ran, waits_of_answered stuck,
    (run_keeps d.keeps ⟨⟨inv, stop⟩, first⟩ mine ran).2⟩

/-- A server that is forsaken is so when no step is left. -/
theorem Forsaken.exists_waits {server : Server} (forsaken : e.Forsaken args server)
    (inv : e.Inv args N)
    (stop : e.feed.stop = true) (safe : ¬ args.Breaks) (alive : e.killed = false) :
    ∃ as e', (∀ a ∈ as, a.own = true ∧ a.answered = true) ∧
      run (EngineThreads.step args) e as = some e' ∧ e'.Waits args ∧ ¬ e'.Ended := by
  obtain ⟨as, e', mine, ran, waits, forsaken', alive'⟩ :=
    inv.exists_waits (I := fun e => e.Forsaken args server ∧ e.killed = false) stop
      ⟨forsaken, alive⟩
      fun _ _ _ inv held own answered stepped =>
        ⟨held.1.step inv own stepped, alive_step safe answered stepped⟩
  exact ⟨as, e', mine, ran, waits, not_or_intro (by simp [alive']) forsaken'.not_exited⟩

/-- The metrics server listens and waits, and the stop flag is set. -/
def metricsWaits : List ThreadStep :=
  [.open, .bind .metrics (some metricsServerPort), .server .metrics, .interrupt none]

/-- The gateway listens on the port and waits, and the stop flag is set. -/
def gatewayWaits (port : UInt16) : List ThreadStep :=
  [.bind .gateway (some port), .server .gateway, .interrupt none]

/-- A peer connects to the metrics server and stays silent, and the stop flag is set. -/
def silentPeer : List ThreadStep :=
  [.open, .bind .metrics (some metricsServerPort), .server .metrics,
    .connect metricsServerPort false, .server .metrics, .interrupt none]

section Forsaking

variable (q : SpscQueue Event)

theorem metricsWaits_forsaken (unpoked : ¬ args.Pokes metricsServerPort) :
    ∃ e, run (step args) (start q) metricsWaits = some e ∧ e.feed.stop = true ∧ e.killed = false ∧
      e.Forsaken args .metrics :=
  ⟨_, rfl, rfl, rfl, .inr ⟨rfl, rfl, metricsServerPort, by decide, rfl, unpoked⟩⟩

theorem gatewayWaits_forsaken {port : UInt16} (nonzero : port ≠ 0)
    (same : args.asked .gateway = 0 ∨ args.asked .gateway = port) (unpoked : ¬ args.Pokes port) :
    ∃ e, run (step args) (start q) (gatewayWaits port) = some e ∧ e.feed.stop = true ∧
      e.killed = false ∧ e.Forsaken args .gateway := by
  have may : (start q).MayBind args .gateway (some port) := by
    rintro _ ⟨⟩
    exact ⟨nonzero, same, by simp [start, Listener.initial], by simp [start, Listener.initial]⟩
  have bound : (start q).act args (.bind .gateway (some port)) =
      some ((start q).withListener .gateway ⟨.testStop, some port, []⟩) := if_pos ⟨rfl, may⟩
  rw [gatewayWaits, run_cons, step, if_neg (by simp [start]), bound]
  exact ⟨_, rfl, rfl, rfl, .inr ⟨rfl, rfl, port, nonzero, rfl, unpoked⟩⟩

theorem silentPeer_forsaken (args : EngineArgs) :
    ∃ e, run (step args) (start q) silentPeer = some e ∧ e.feed.stop = true ∧ e.killed = false ∧
      e.Forsaken args .metrics :=
  ⟨_, rfl, rfl, rfl, .inl rfl⟩

/-- Where a server is not woken, some run leaves one forsaken. -/
theorem exists_forsaken (asleep : ¬ args.Wakes) :
    ∃ as e server, (∀ a ∈ as, a.Speaks ∧ a.answered = true) ∧
      run (step args) (start q) as = some e ∧
      e.feed.stop = true ∧ e.killed = false ∧ e.Forsaken args server := by
  obtain ⟨server, unpoked⟩ := not_forall.mp asleep
  cases server with
  | metrics =>
    obtain ⟨e, ran, lost⟩ := metricsWaits_forsaken q unpoked
    exact ⟨metricsWaits, e, .metrics,
      by simp [metricsWaits, ThreadStep.Speaks, ThreadStep.answered], ran, lost⟩
  | gateway =>
    have waits : ∀ port, port ≠ 0 → (args.asked .gateway = 0 ∨ args.asked .gateway = port) →
        ¬ args.Pokes port →
        ∃ as e server, (∀ a ∈ as, a.Speaks ∧ a.answered = true) ∧
          run (step args) (start q) as = some e ∧ e.feed.stop = true ∧ e.killed = false ∧
            e.Forsaken args server := by
      intro port nonzero same unpoked
      obtain ⟨e, ran, lost⟩ := gatewayWaits_forsaken q nonzero same unpoked
      exact ⟨gatewayWaits port, e, .gateway,
        by simp [gatewayWaits, ThreadStep.Speaks, ThreadStep.answered], ran, lost⟩
    by_cases free : args.asked .gateway = 0
    · -- Of two free ports the metrics port is not both.
      have unpoked : ∀ port, port ≠ 0 → UInt16.ofInt args.metricsPort ≠ port →
          ¬ args.Pokes port := by
        rintro port nonzero other ⟨-, ⟨-, same⟩ | ⟨-, same⟩⟩
        · exact nonzero (same.symm.trans free)
        · exact other same
      by_cases first : UInt16.ofInt args.metricsPort = 32768
      · exact waits 32769 (by decide) (.inl free) (unpoked _ (by decide) (by rw [first]; decide))
      · exact waits 32768 (by decide) (.inl free) (unpoked _ (by decide) first)
    · exact waits _ free (.inr rfl) unpoked

end Forsaking

end EngineThreads

open EngineThreads

theorem ThreadStep.speaks_of_own {a : ThreadStep} (own : a.own = true) : a.Speaks := by
  cases a with
  | connect => cases own
  | _ => trivial

/-- Where no peer of the metrics server stays silent, the engine always comes to an end exactly when
`wake_services` connects to the ports of both servers, or to port 0, which ends it by `SIGPIPE`.
Where its connections are answered, it always exits exactly when `wake_services` connects to both
and not to port 0.  A peer of the metrics server that stays silent keeps it from its end whatever
the other ports are. -/
theorem engine_exits_iff_wakes (args : EngineArgs) :
    ∃ q, SpscQueue.new Event 64 queueCapacity = some q ∧
      ((∀ as e, (∀ a ∈ as, a.Speaks) → run (step args) (start q) as = some e →
        e.Waits args → e.Ended) ↔ args.Wakes ∨ args.Breaks) ∧
      ((∀ as e, (∀ a ∈ as, a.Speaks ∧ a.answered = true) → run (step args) (start q) as = some e →
          e.Waits args → e.Exited) ↔ args.Wakes ∧ ¬ args.Breaks) ∧
      (¬ args.Breaks → ∃ as e, (∀ a ∈ as, a.answered = true) ∧
        run (step args) (start q) as = some e ∧ e.Waits args ∧ ¬ e.Ended) := by
  obtain ⟨q, built, -, holds, open_⟩ := new_eventQueue
  have inv : (start q).Inv args q.capacity.toNat := inv_start holds open_
  have keeps := fun as e (ran : run (step args) (start q) as = some e) =>
    run_invariant' (fun _ _ _ inv stepped => inv_step inv stepped) inv ran
  -- A run to a forsaken server goes on to where no step is left.
  have lost : ∀ as e server, ¬ args.Breaks → run (step args) (start q) as = some e →
      e.feed.stop = true → e.killed = false → e.Forsaken args server →
        ∃ last e', (∀ a ∈ last, a.own = true ∧ a.answered = true) ∧
          run (step args) (start q) (as ++ last) = some e' ∧ e'.Waits args ∧ ¬ e'.Ended := by
    intro as e server safe ran stop alive forsaken
    obtain ⟨last, e', mine, ran', waits, lost⟩ :=
      forsaken.exists_waits (keeps as e ran) stop safe alive
    exact ⟨last, e', mine, by rw [run_append, ran]; exact ran', waits, lost⟩
  have asleep : ¬ args.Breaks → ¬ args.Wakes → ∃ as e, (∀ a ∈ as, a.Speaks ∧ a.answered = true) ∧
      run (step args) (start q) as = some e ∧ e.Waits args ∧ ¬ e.Ended := by
    intro safe asleep
    obtain ⟨as, e, server, meets, ran, stop, alive, forsaken⟩ := exists_forsaken q asleep
    obtain ⟨last, e', mine, ran', waits, lost⟩ := lost as e server safe ran stop alive forsaken
    refine ⟨as ++ last, e', fun a member => ?_, ran', waits, lost⟩
    exact (List.mem_append.mp member).elim (meets a) fun later =>
      ⟨ThreadStep.speaks_of_own (mine a later).1, (mine a later).2⟩
  have ends : ∀ as e, (∀ a ∈ as, a.Speaks) → run (step args) (start q) as = some e → e.Waits args →
      args.Wakes → e.killed = false → e.Exited := by
    intro as e speak ran waits wakes alive
    have each : ∀ e a e', (e.Inv args q.capacity.toNat ∧ ∀ server, (e.listener server).Spoken) →
        a.Speaks → step args e a = some e' → e'.Inv args q.capacity.toNat ∧
          ∀ server, (e'.listener server).Spoken :=
      fun _ _ _ inv speaks stepped =>
        ⟨inv_step inv.1 stepped, spoken_step inv.2 inv.1 speaks stepped⟩
    obtain ⟨inv', spoken⟩ := run_keeps each ⟨inv, spoken_start q⟩ speak ran
    exact inv'.exited spoken wakes waits alive
  refine ⟨q, built, ⟨fun ended => ?_, fun either as e speak ran waits => ?_⟩,
    ⟨fun exits => ?_, fun ⟨wakes, safe⟩ as e meets ran waits => ?_⟩, fun safe => ?_⟩
  · by_contra neither
    obtain ⟨still, safe⟩ := not_or.mp neither
    obtain ⟨as, e, meets, ran, waits, lost⟩ := asleep safe still
    exact lost (ended as e (fun a member => (meets a member).1) ran waits)
  · cases alive : e.killed with
    | true => exact .inl alive
    | false =>
      refine .inr (ends as e speak ran waits ?_ alive)
      exact either.resolve_right ((keeps as e ran).not_breaks waits alive)
  · -- Some run comes to where no step is left.
    have stopped : run (step args) (start q) [.interrupt none] =
        some { start q with feed := { (start q).feed with stop := true } } := rfl
    obtain ⟨as, e, mine, ran, waits, -⟩ :=
      (keeps _ _ stopped).exists_waits (I := fun _ => True) rfl trivial fun _ _ _ _ _ _ _ _ =>
        trivial
    have ran' : run (step args) (start q) ([.interrupt none] ++ as) = some e := by
      rw [run_append, stopped]
      exact ran
    have meets : ∀ a ∈ [.interrupt none] ++ as, a.Speaks ∧ a.answered = true := by
      intro a member
      obtain first | later := List.mem_append.mp member
      · obtain rfl := List.mem_singleton.mp first
        exact ⟨trivial, rfl⟩
      · exact ⟨ThreadStep.speaks_of_own (mine a later).1, (mine a later).2⟩
    have safe := (keeps _ _ ran').not_breaks waits (exits _ _ meets ran' waits).alive
    refine ⟨?_, safe⟩
    by_contra still
    obtain ⟨as, e, meets, ran, waits, lost⟩ := asleep safe still
    exact lost (.inr (exits as e meets ran waits))
  · have alive : e.killed = false :=
      run_keeps (fun _ _ _ _ answered stepped => alive_step safe answered stepped) rfl
        (fun a member => (meets a member).2) ran
    exact ends as e (fun a member => (meets a member).1) ran waits wakes alive
  · obtain ⟨e, ran, stop, alive, forsaken⟩ := silentPeer_forsaken q args
    obtain ⟨last, e', mine, ran', waits, lost⟩ :=
      lost silentPeer e .metrics safe ran stop alive forsaken
    refine ⟨silentPeer ++ last, e', fun a member => ?_, ran', waits, lost⟩
    have silent : ∀ a ∈ silentPeer, a.answered = true := by simp [silentPeer, ThreadStep.answered]
    exact (List.mem_append.mp member).elim (silent a) fun later => (mine a later).2

/-- The ports of the deployment, and a metrics port that is not the server's. -/
example : EngineArgs.Wakes ⟨9999, 9100⟩ ∧ ¬ EngineArgs.Wakes ⟨9999, 9101⟩ :=
  ⟨fun server => by cases server <;> decide, fun wakes => absurd (wakes .metrics) (by decide)⟩

/-- After the stop flag is set, the engine makes a bounded number of steps, whatever signals,
connections and failures come between them. -/
theorem engine_stops_in_bounded_steps (args : EngineArgs) :
    ∃ q, SpscQueue.new Event 64 queueCapacity = some q ∧
      ∀ before e, run (step args) (start q) before = some e → e.feed.stop = true →
        ∀ after e', run (step args) e after = some e' →
          after.countP ThreadStep.own ≤ 4 * q.capacity.toNat + 28 := by
  obtain ⟨q, built, -, holds, open_⟩ := new_eventQueue
  refine ⟨q, built, fun before e ran stop after e' later => ?_⟩
  have inv : e.Inv args q.capacity.toNat :=
    run_invariant' (fun _ _ _ inv stepped => inv_step inv stepped) (inv_start holds open_) ran
  have paid := (descends args q.capacity.toNat).countP_le ⟨inv, stop⟩ (fun _ _ => trivial) later
  have bound := inv.rank_le
  omega

end EtradePipeline
