import EtradePipeline.Kit.Termination
import EtradePipeline.Receiver.Shutdown

/-! The threads of the engine while it stops (`engine.cpp`, the accept loops of `metrics_server` and
`run_execution_gateway`, the joins of `run_udp_receiver`).  The receiver and its consumer are those
of `Feed`.  The metrics server and the gateway wait in `accept`, from which a connection or a signal
wakes them, and the receives of the receiver time out.  A connection is given by whether its peer
sends something or closes.  No thread ignores `SIGPIPE`, which a `send` raises on a socket that is
not connected: it ends the engine. -/

namespace EtradePipeline

open Kit.Transition

/-- The threads that accept connections. -/
inductive Server where
  | metrics
  | gateway
  deriving DecidableEq

inductive ServerThread where
  | notStarted
  | bind
  | testStop
  | accept
  | recv (speaks : Bool)
  | returned
  deriving DecidableEq

/-- The thread of a server, the port that it listens on, and the connections that it has yet to
accept. -/
structure Listener where
  thread : ServerThread
  port : Option UInt16
  backlog : List Bool

inductive MainThread where
  | testStop
  | pokeReceiver
  | pokeGateway
  | pokeMetrics
  | joinReceiver
  | joinGateway
  | returned
  deriving DecidableEq

/-- Where `run_udp_receiver` is: before its loop, in the loop and the shutdown of the feed or
waiting for the consumer, or waiting for the metrics server. -/
inductive ReceiverStage where
  | opening
  | running
  | joinMetrics
  | returned
  deriving DecidableEq

/-- The arguments of the engine that its shutdown depends on. -/
structure EngineArgs where
  gwPort : Int
  metricsPort : Int

/-- The threads, and whether a signal has ended them all. -/
structure EngineThreads where
  main : MainThread
  receiver : ReceiverStage
  feed : Feed
  listener : Server → Listener
  killed : Bool

/-- A step.  The first five come from outside: a signal, handled on a thread that waits in a call or
on another one, the `SIGPIPE` of a `send` to a peer that has reset its connection, a connection to a
port, an `accept` that fails, and the failure of the receiver to open its socket or file.  The step
of `main` has whether another program answers on the port that it connects to. -/
inductive ThreadStep where
  | interrupt (on : Option Server)
  | brokenPipe
  | connect (port : UInt16) (speaks : Bool)
  | acceptFails (server : Server)
  | openFails
  | open
  | main (answered : Bool)
  | push (events : Batch Event)
  | receiver
  | consumer
  | join
  | bind (server : Server) (given : Option UInt16)
  | server (server : Server)

/-- The engine's own steps. -/
def ThreadStep.own : ThreadStep → Bool
  | .interrupt _ | .brokenPipe | .connect .. | .acceptFails _ | .openFails => false
  | .open | .main _ | .push _ | .receiver | .consumer | .join | .bind .. | .server _ => true

/-- The port of the metrics server. -/
def metricsServerPort : UInt16 := 9100

namespace Listener

/-- The gateway's thread is created by `main`, the one of the metrics server by the receiver. -/
def initial : Server → Listener
  | .metrics => ⟨.notStarted, none, []⟩
  | .gateway => ⟨.bind, none, []⟩

/-- Behind `return`, with the socket closed. -/
def closed : Listener := ⟨.returned, none, []⟩

/-- A connection to the port. -/
def connected (l : Listener) (speaks : Bool) : Listener :=
  { l with backlog := l.backlog ++ [speaks] }

/-- The accept loop.  The gateway leaves a connection to a thread of its own, the metrics server
waits for the request. -/
def step (l : Listener) (server : Server) (stop : Bool) : Option Listener :=
  match l.thread with
  | .notStarted | .bind | .returned => none
  | .testStop => some (if stop then closed else { l with thread := .accept })
  | .accept =>
    match l.backlog with
    | [] => none
    | speaks :: backlog =>
      match server with
      | .metrics => some { l with thread := .recv speaks, backlog }
      | .gateway => some { l with thread := .testStop, backlog }
  | .recv speaks => if speaks then some { l with thread := .testStop } else none

/-- A signal handled on the thread: `accept` fails with `EINTR`, and the result of `recv` is not
used. -/
def interrupted (l : Listener) : Listener :=
  match l.thread with
  | .accept | .recv _ => { l with thread := .testStop }
  | _ => l

end Listener

namespace EngineArgs

/-- The port that the server asks for. -/
def asked (args : EngineArgs) : Server → UInt16
  | .metrics => metricsServerPort
  | .gateway => UInt16.ofInt args.gwPort

/-- `wake_services` connects to the port. -/
def Pokes (args : EngineArgs) (port : UInt16) : Prop :=
  port ≠ 0 ∧ ((0 < args.gwPort ∧ UInt16.ofInt args.gwPort = port) ∨
    0 < args.metricsPort ∧ UInt16.ofInt args.metricsPort = port)

instance (args : EngineArgs) (port : UInt16) : Decidable (args.Pokes port) :=
  inferInstanceAs (Decidable (_ ∧ _))

/-- `wake_services` connects to the ports of both servers. -/
def Wakes (args : EngineArgs) : Prop := ∀ server, args.Pokes (args.asked server)

/-- `wake_services` connects to port 0 (of a multiple of 65536), on which no program listens. -/
def Breaks (args : EngineArgs) : Prop :=
  ∃ port ∈ [args.gwPort, args.metricsPort], 0 < port ∧ UInt16.ofInt port = 0

end EngineArgs

namespace EngineThreads

/-- The engine when its threads are created. -/
def start (queue : SpscQueue Event) : EngineThreads :=
  ⟨.testStop, .opening, .start queue .empty, Listener.initial, false⟩

def withListener (e : EngineThreads) (server : Server) (l : Listener) : EngineThreads :=
  { e with listener := Function.update e.listener server l }

section

variable (e : EngineThreads) (server : Server) (l : Listener)

@[simp] theorem withListener_main : (e.withListener server l).main = e.main := rfl

@[simp] theorem withListener_receiver : (e.withListener server l).receiver = e.receiver := rfl

@[simp] theorem withListener_feed : (e.withListener server l).feed = e.feed := rfl

@[simp] theorem withListener_killed : (e.withListener server l).killed = e.killed := rfl

@[simp] theorem withListener_self : (e.withListener server l).listener server = l :=
  Function.update_self ..

@[simp] theorem withListener_same : e.withListener server (e.listener server) = e := by
  rw [withListener, Function.update_eq_self]

theorem withListener_ne {other : Server} (ne : other ≠ server) :
    (e.withListener server l).listener other = e.listener other :=
  Function.update_of_ne ne ..

end

/-- A connection, which is refused, or is another program's, where no server listens. -/
def connect (e : EngineThreads) (port : UInt16) (speaks : Bool) : EngineThreads :=
  if (e.listener .metrics).port = some port then
    e.withListener .metrics ((e.listener .metrics).connected speaks)
  else if (e.listener .gateway).port = some port then
    e.withListener .gateway ((e.listener .gateway).connected speaks)
  else e

/-- A server of the engine listens on the port. -/
def Listens (e : EngineThreads) (port : UInt16) : Prop :=
  (e.listener .metrics).port = some port ∨ (e.listener .gateway).port = some port

instance (e : EngineThreads) (port : UInt16) : Decidable (e.Listens port) :=
  inferInstanceAs (Decidable (_ ∨ _))

/-- `tcp_poke`, which sends a request whether it is connected or not.  The result of `connect` is
not used, and where it is refused `SIGPIPE` ends the engine. -/
def tcpPoke (e : EngineThreads) (port : Int) (answered : Bool) : EngineThreads :=
  if port ≤ 0 then e
  else if e.Listens (UInt16.ofInt port) then e.connect (UInt16.ofInt port) true
  else if answered ∧ UInt16.ofInt port ≠ 0 then e
  else { e with killed := true }

/-- What `bind` can give a server: a failure, the port asked for when the other server does not have
it, or a free port for port 0. -/
def MayBind (args : EngineArgs) (e : EngineThreads) (server : Server) (given : Option UInt16) :
    Prop :=
  ∀ port ∈ given, port ≠ 0 ∧ (args.asked server = 0 ∨ args.asked server = port) ∧
    (e.listener .metrics).port ≠ some port ∧ (e.listener .gateway).port ≠ some port

instance (args : EngineArgs) (e : EngineThreads) (server : Server) (given : Option UInt16) :
    Decidable (e.MayBind args server given) :=
  match given with
  | none => isTrue (by simp [MayBind])
  | some port => decidable_of_iff (port ≠ 0 ∧ (args.asked server = 0 ∨ args.asked server = port) ∧
      (e.listener .metrics).port ≠ some port ∧ (e.listener .gateway).port ≠ some port)
        (by simp [MayBind])

/-- `main` after it has created the threads. -/
def mainStep (args : EngineArgs) (e : EngineThreads) (answered : Bool) : Option EngineThreads :=
  match e.main with
  | .testStop => some { e with main := if e.feed.stop then .pokeReceiver else .testStop }
  -- The text "wake" is no event, and the receiver's own timeout wakes it as well.
  | .pokeReceiver => some { e with main := .pokeGateway }
  | .pokeGateway => some { e.tcpPoke args.gwPort answered with main := .pokeMetrics }
  | .pokeMetrics => some { e.tcpPoke args.metricsPort answered with main := .joinReceiver }
  | .joinReceiver => if e.receiver = .returned then some { e with main := .joinGateway } else none
  | .joinGateway =>
    if (e.listener .gateway).thread = .returned then some { e with main := .returned } else none
  | .returned => none

/-- The end of `run_udp_receiver`, which waits for its threads. -/
def joinStep (e : EngineThreads) : Option EngineThreads :=
  match e.receiver with
  | .running =>
    if e.feed.receiver = .returned ∧ e.feed.consumer = .returned then
      some { e with receiver := .joinMetrics }
    else none
  | .joinMetrics =>
    if (e.listener .metrics).thread = .returned then some { e with receiver := .returned } else none
  | .opening | .returned => none

/-- A step of the feed, once the receiver has started it. -/
def feedStep (e : EngineThreads) (a : FeedStep) : Option EngineThreads :=
  match (e.listener .metrics).thread with
  | .notStarted => none
  | _ => (e.feed.step a).map fun feed => { e with feed }

/-- An engine that has not been ended after a step, when it is enabled. -/
def act (args : EngineArgs) (e : EngineThreads) : ThreadStep → Option EngineThreads
  | .interrupt on =>
    let e := { e with feed := { e.feed with stop := true } }
    match on with
    | none => some e
    | some server => some (e.withListener server (e.listener server).interrupted)
  | .brokenPipe => some { e with killed := true }
  | .connect port speaks => some (e.connect port speaks)
  | .acceptFails server =>
    if (e.listener server).thread = .accept then some (e.withListener server .closed) else none
  | .openFails => if e.receiver = .opening then some { e with receiver := .returned } else none
  | .open =>
    if e.receiver = .opening then
      some ({ e with receiver := .running }.withListener .metrics
        { e.listener .metrics with thread := .bind })
    else none
  | .main answered => e.mainStep args answered
  | .push events => e.feedStep (.push events)
  | .receiver => e.feedStep .receiver
  | .consumer => e.feedStep .consumer
  | .join => e.joinStep
  | .bind server given =>
    if (e.listener server).thread = .bind ∧ e.MayBind args server given then
      some (e.withListener server (match given with
        | none => .closed
        | some port => ⟨.testStop, some port, []⟩))
    else none
  | .server server =>
    ((e.listener server).step server e.feed.stop).map (e.withListener server)

/-- The engine after a step, when it is enabled. -/
def step (args : EngineArgs) (e : EngineThreads) (a : ThreadStep) : Option EngineThreads :=
  if e.killed then none else e.act args a

/-- No step of the engine is enabled. -/
def Waits (args : EngineArgs) (e : EngineThreads) : Prop := Stuck (step args) ThreadStep.own e

/-- `main` has returned, and so have the threads that it and the receiver have started. -/
structure Exited (e : EngineThreads) : Prop where
  main : e.main = .returned
  receiver : e.receiver = .returned
  gateway : (e.listener .gateway).thread = .returned
  metrics : (e.listener .metrics).thread = .notStarted ∨
    (e.listener .metrics).thread = .returned ∧ e.feed.consumer = .returned
  alive : e.killed = false

/-- The process has ended. -/
def Ended (e : EngineThreads) : Prop := e.killed = true ∨ e.Exited

end EngineThreads

/-- The peers of connections from outside send something or close. -/
def ThreadStep.Speaks : ThreadStep → Prop
  | .connect _ speaks => speaks = true
  | _ => True

/-- No `send` raises `SIGPIPE`, but for one to port 0: where no server of the engine listens another
program answers, and no peer resets its connection. -/
def ThreadStep.answered : ThreadStep → Bool
  | .main answered => answered
  | .brokenPipe => false
  | _ => true

end EtradePipeline
