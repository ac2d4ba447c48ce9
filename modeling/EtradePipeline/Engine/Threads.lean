import EtradePipeline.Gateway.Client
import EtradePipeline.Orders.Sections
import EtradePipeline.Receiver.Accounting

/-! The running engine (`engine.cpp`, `run_execution_gateway`): the receiver with its consumer, and
for each connection a thread in `handle_client`.  The consumer and the order manager work on one
book.  A step is one of the feed's, the accepting of a connection, a `recv` of a thread, or what a
thread does with its next line up to the end of the first section of the manager that it calls, and
then each further section. -/

namespace EtradePipeline

open Kit.Transition

/-- Where the thread of a connection is: between two lines, or in `submit_order` for a line, with
the number of the call in the pool. -/
inductive Handling where
  | reading
  | submitting (line : Bytes) (ord : Order) (call : Nat)

/-- A line that a thread has answered, with the number of the call of `submit_order` that it made,
if it made one. -/
structure Exchange where
  line : Bytes
  call : Option Nat
  responses : List Response

/-- A thread in `handle_client`, with the record of what it has received and answered. -/
structure Handler where
  readbuf : Bytes
  received : Bytes
  handling : Handling
  answered : List Exchange

/-- The feed, the manager with the calls made to it, and the threads in the order of their
connections. -/
structure Engine where
  feed : Pipeline
  pool : Pool
  handlers : List Handler

inductive EngineStep (b : UInt64) where
  | feed (a : PipelineStep b)
  | accept
  | recv (client : Nat) (chunk : Chunk)
  | take (client : Nat)
  | advance (client : Nat)

/-- The policy that `run_execution_gateway` gives its manager. -/
def gatewayPolicy (maxSize : Int64) : RiskPolicy where
  maxOrderSize := maxSize.toUInt64
  maxOpenOrders := 100000

namespace Handler

/-- The thread of a new connection. -/
def start : Handler := ⟨[], [], .reading, []⟩

/-- `recv`, after all lines of the buffer are done. -/
def recv (h : Handler) (chunk : Chunk) : Option Handler :=
  match h.handling, Client.nextLine h.readbuf with
  | .reading, none =>
    some { h with readbuf := h.readbuf ++ chunk.data, received := h.received ++ chunk.data }
  | _, _ => none

/-- The responses sent so far.  The acknowledgement of an order goes out before `submit_order` is
called. -/
def sent (h : Handler) : List Response :=
  h.answered.flatMap Exchange.responses ++
    match h.handling with
    | .reading => []
    | .submitting _ ord _ => [.ack ord.clid]

/-- The thread after its `submit_order` has run a section and is at the stage. -/
def advanced (h : Handler) (line : Bytes) (ord : Order) (call : Nat) : Stage → Handler
  | .returned fills => { h with
      handling := .reading
      answered := h.answered ++ [⟨line, some call, .ack ord.clid :: fills.map .fill⟩] }
  | _ => h

end Handler

/-- What a thread does with a request before another thread may act on the manager: the pool, where
the thread is then, and its answer when it is done. -/
def Pool.begin (p : Pool) (line : Bytes) : Option Request → Option (Pool × Handling × List Exchange)
  | none => some (p, .reading, [⟨line, none, []⟩])
  | some (.refuse clid reason counted) =>
    some (if counted then { p with manager := p.manager.countRejected } else p, .reading,
      [⟨line, none, [.rej clid reason]⟩])
  | some (.cancel clid) => do
    let response := match (p.manager.cancelOrder clid).1 with
      | some size => .cal clid size
      | none => .rej clid (bytes "not_found_or_filled")
    let p ← p.step (.cancel clid)
    some (p, .reading, [⟨line, none, [response]⟩])
  | some (.order ord) => do
    let call := p.submits.length
    let p' ← p.step (.check ord)
    match p.manager.checkOrder ord with
    | some reason => some (p', .reading, [⟨line, some call, [.ack ord.clid, .rej ord.clid reason]⟩])
    | none => some (p', .submitting line ord call, [])

/-- The line is not an order, and the responses are those to what it asks for. -/
def AnsweredAlone (maxSize : Int64) (line : Bytes) (responses : List Response) : Prop :=
  match requestOf maxSize line with
  | none => responses = []
  | some (.refuse clid reason _) => responses = [.rej clid reason]
  | some (.cancel clid) =>
    (∃ n, responses = [.cal clid n]) ∨ responses = [.rej clid (bytes "not_found_or_filled")]
  | some (.order _) => False

namespace Engine

/-- Before the first datagram and the first connection. -/
def start (maxSize : Int64) (queue : SpscQueue Event) (b : UInt64) : Engine :=
  ⟨.start queue b .empty, .start (some .empty) (gatewayPolicy maxSize), []⟩

/-- The engine after a step of the feed. -/
def withFeed (e : Engine) (feed : Pipeline) : Engine :=
  { e with feed, pool := { e.pool with manager := { e.pool.manager with ob := some feed.book } } }

/-- The engine after a step of the manager. -/
def withPool (e : Engine) (pool : Pool) : Engine :=
  { e with pool, feed := { e.feed with book := pool.manager.ob.getD e.feed.book } }

def withHandler (e : Engine) (i : Nat) (h : Handler) : Engine :=
  { e with handlers := e.handlers.set i h }

/-- A thread takes the next line of its buffer. -/
def take (maxSize : Int64) (e : Engine) (i : Nat) : Option Engine := do
  let h ← e.handlers[i]?
  match h.handling with
  | .submitting .. => none
  | .reading =>
    let (line, readbuf) ← Client.nextLine h.readbuf
    let h := { h with readbuf }
    if line = [] then some (e.withHandler i h)
    else
      let (pool, handling, answers) ← e.pool.begin line (requestOf maxSize line)
      some ((e.withPool pool).withHandler i { h with handling, answered := h.answered ++ answers })

/-- A thread runs the next section of its `submit_order`. -/
def advance (e : Engine) (i : Nat) : Option Engine := do
  let h ← e.handlers[i]?
  match h.handling with
  | .reading => none
  | .submitting line ord call =>
    let pool ← e.pool.step (.advance call)
    let moved ← pool.submits[call]?
    some ((e.withPool pool).withHandler i (h.advanced line ord call moved.stage))

variable (toDouble : Bytes → Option Double) (maxSize : Int64)

/-- The engine after a step, when it is enabled. -/
def step {b : UInt64} (e : Engine) : EngineStep b → Option Engine
  | .feed a => (e.feed.step toDouble a).map e.withFeed
  | .accept => some { e with handlers := e.handlers ++ [.start] }
  | .recv i chunk => do
    let h ← e.handlers[i]?
    (h.recv chunk).map (e.withHandler i)
  | .take i => e.take maxSize i
  | .advance i => e.advance i

/-- What a step can do, one constructor for each outcome. -/
inductive Steps {b : UInt64} (e : Engine) : EngineStep b → Engine → Prop
  | fed (a : PipelineStep b) (feed : Pipeline) (stepped : e.feed.step toDouble a = some feed) :
      Steps e (.feed a) (e.withFeed feed)
  | accepted : Steps e .accept { e with handlers := e.handlers ++ [.start] }
  | received (i : Nat) (h : Handler) (chunk : Chunk) (at_ : e.handlers[i]? = some h)
      (reading : h.handling = .reading) (done : Client.nextLine h.readbuf = none) :
      Steps e (.recv i chunk) (e.withHandler i { h with
        readbuf := h.readbuf ++ chunk.data
        received := h.received ++ chunk.data })
  | skipped (i : Nat) (h : Handler) (readbuf : Bytes) (at_ : e.handlers[i]? = some h)
      (reading : h.handling = .reading) (next : Client.nextLine h.readbuf = some ([], readbuf)) :
      Steps e (.take i) (e.withHandler i { h with readbuf })
  | answered (i : Nat) (h : Handler) (line readbuf : Bytes) (responses : List Response)
    (pool : Pool)
      (at_ : e.handlers[i]? = some h) (reading : h.handling = .reading)
      (next : Client.nextLine h.readbuf = some (line, readbuf)) (nonempty : line ≠ [])
      (alone : AnsweredAlone maxSize line responses) (submits : pool.submits = e.pool.submits)
      (ob : pool.manager.ob = e.pool.manager.ob) :
      Steps e (.take i) ((e.withPool pool).withHandler i { h with
        readbuf
        answered := h.answered ++ [⟨line, none, responses⟩] })
  | rejected (i : Nat) (h : Handler) (line readbuf reason : Bytes) (ord : Order) (pool : Pool)
      (at_ : e.handlers[i]? = some h) (reading : h.handling = .reading)
      (next : Client.nextLine h.readbuf = some (line, readbuf)) (nonempty : line ≠ [])
      (asked : requestOf maxSize line = some (.order ord))
      (submits : pool.submits = e.pool.submits ++ [⟨ord, .rejected reason⟩])
      (ob : pool.manager.ob = e.pool.manager.ob) :
      Steps e (.take i) ((e.withPool pool).withHandler i { h with
        readbuf
        answered := h.answered ++
          [⟨line, some e.pool.submits.length, [.ack ord.clid, .rej ord.clid reason]⟩] })
  | checked (i : Nat) (h : Handler) (line readbuf : Bytes) (ord : Order) (pool : Pool)
      (at_ : e.handlers[i]? = some h) (reading : h.handling = .reading)
      (next : Client.nextLine h.readbuf = some (line, readbuf)) (nonempty : line ≠ [])
      (asked : requestOf maxSize line = some (.order ord))
      (submits : pool.submits = e.pool.submits ++ [⟨ord, .checked⟩])
      (ob : pool.manager.ob = e.pool.manager.ob) :
      Steps e (.take i) ((e.withPool pool).withHandler i { h with
        readbuf
        handling := .submitting line ord e.pool.submits.length })
  | advanced (i : Nat) (h : Handler) (line : Bytes) (ord : Order) (call : Nat) (pool : Pool)
      (moved : SubmitCall) (at_ : e.handlers[i]? = some h)
      (busy : h.handling = .submitting line ord call)
      (stepped : e.pool.step (.advance call) = some pool) (now : pool.submits[call]? = some moved) :
      Steps e (.advance i) ((e.withPool pool).withHandler i (h.advanced line ord call moved.stage))

end Engine

/-- What a thread has done with a line when it leaves the manager to the others. -/
theorem Pool.begin_cases {maxSize : Int64} {p pool : Pool} {line : Bytes} {handling : Handling}
    {answers : List Exchange}
    (begun : p.begin line (requestOf maxSize line) = some (pool, handling, answers)) :
    pool.manager.ob = p.manager.ob ∧
    ((∃ responses, AnsweredAlone maxSize line responses ∧ pool.submits = p.submits ∧
        handling = .reading ∧ answers = [⟨line, none, responses⟩]) ∨
      ∃ ord, requestOf maxSize line = some (.order ord) ∧
        ((∃ reason, pool.submits = p.submits ++ [⟨ord, .rejected reason⟩] ∧ handling = .reading ∧
            answers = [⟨line, some p.submits.length, [.ack ord.clid, .rej ord.clid reason]⟩]) ∨
          pool.submits = p.submits ++ [⟨ord, .checked⟩] ∧
            handling = .submitting line ord p.submits.length ∧ answers = [])) := by
  cases asked : requestOf maxSize line with
  | none =>
    rw [asked] at begun
    cases begun
    exact ⟨rfl, .inl ⟨[], by simp [AnsweredAlone, asked], rfl, rfl, rfl⟩⟩
  | some request =>
    rw [asked] at begun
    cases request with
    | refuse clid reason counted =>
      cases begun
      refine ⟨by cases counted <;> rfl, .inl ⟨_, ?_, by cases counted <;> rfl, rfl, rfl⟩⟩
      simp [AnsweredAlone, asked]
    | cancel clid =>
      simp only [Pool.begin, Option.bind_eq_bind, Option.bind_eq_some_iff] at begun
      obtain ⟨pool', stepped, begun⟩ := begun
      cases begun
      have alone : AnsweredAlone maxSize line [match (p.manager.cancelOrder clid).1 with
          | some size => .cal clid size
          | none => .rej clid (bytes "not_found_or_filled")] := by
        rw [AnsweredAlone, asked]
        cases (p.manager.cancelOrder clid).1 with
        | none => exact .inr rfl
        | some size => exact .inl ⟨size, rfl⟩
      cases Pool.steps_of_step stepped with
      | refused => exact ⟨rfl, .inl ⟨_, alone, rfl, rfl, rfl⟩⟩
      | canceled _ st found live manager ob => exact ⟨ob, .inl ⟨_, alone, rfl, rfl, rfl⟩⟩
    | order ord =>
      simp only [Pool.begin, Option.bind_eq_bind, Option.bind_eq_some_iff] at begun
      obtain ⟨pool', stepped, begun⟩ := begun
      cases Pool.steps_of_step stepped with
      | rejected _ reason failed =>
        rw [failed] at begun
        cases begun
        exact ⟨rfl, .inr ⟨ord, rfl, .inl ⟨reason, rfl, rfl, rfl⟩⟩⟩
      | checked _ passed =>
        rw [passed] at begun
        cases begun
        exact ⟨rfl, .inr ⟨ord, rfl, .inr ⟨rfl, rfl, rfl⟩⟩⟩

namespace Engine

variable {toDouble : Bytes → Option Double} {maxSize : Int64} {b : UInt64} {e e' : Engine}

theorem steps_of_take {i : Nat} (stepped : e.take maxSize i = some e') :
    Steps toDouble maxSize e (.take i : EngineStep b) e' := by
  simp only [take, Option.bind_eq_bind, Option.bind_eq_some_iff] at stepped
  obtain ⟨h, at_, stepped⟩ := stepped
  split at stepped
  · cases stepped
  rename_i reading
  obtain ⟨⟨line, readbuf⟩, next, stepped⟩ := Option.bind_eq_some_iff.mp stepped
  simp only at stepped
  split_ifs at stepped with empty
  · cases stepped
    subst empty
    exact .skipped i h readbuf at_ reading next
  · obtain ⟨⟨pool, handling, answers⟩, begun, stepped⟩ := Option.bind_eq_some_iff.mp stepped
    cases stepped
    obtain ⟨ob, ⟨responses, alone, submits, rfl, rfl⟩ |
      ⟨ord, asked, ⟨reason, submits, rfl, rfl⟩ | ⟨submits, rfl, rfl⟩⟩⟩ := Pool.begin_cases begun
    · rw [← reading]
      exact .answered i h line readbuf responses pool at_ reading next empty alone submits ob
    · rw [← reading]
      exact .rejected i h line readbuf reason ord pool at_ reading next empty asked submits ob
    · rw [List.append_nil]
      exact .checked i h line readbuf ord pool at_ reading next empty asked submits ob

/-- The inversion of a step. -/
theorem steps_of_step {a : EngineStep b} (stepped : e.step toDouble maxSize a = some e') :
    Steps toDouble maxSize e a e' := by
  cases a with
  | feed a =>
    obtain ⟨feed, moved, rfl⟩ := Option.map_eq_some_iff.mp stepped
    exact .fed a feed moved
  | accept =>
    cases stepped
    exact .accepted
  | recv i chunk =>
    obtain ⟨h, at_, stepped⟩ := Option.bind_eq_some_iff.mp stepped
    obtain ⟨h', moved, rfl⟩ := Option.map_eq_some_iff.mp stepped
    simp only [Handler.recv] at moved
    split at moved
    · rename_i reading done
      cases moved
      exact .received i h chunk at_ reading done
    · cases moved
  | take i => exact steps_of_take stepped
  | advance i =>
    simp only [step, advance, Option.bind_eq_bind, Option.bind_eq_some_iff] at stepped
    obtain ⟨h, at_, stepped⟩ := stepped
    split at stepped
    · cases stepped
    · rename_i line ord call busy
      obtain ⟨pool, moved, stepped⟩ := Option.bind_eq_some_iff.mp stepped
      obtain ⟨c, now, stepped⟩ := Option.bind_eq_some_iff.mp stepped
      cases stepped
      exact .advanced i h line ord call pool c at_ busy moved now

end Engine

end EtradePipeline
