import EtradePipeline.Engine.Delivery
import EtradePipeline.Engine.Responses
import EtradePipeline.Replay.Encoders
import EtradePipeline.Service.Metrics

/-! The integration test `test_replay.test_flow`, which starts the engine with a batch size of one,
quotes with `send_udp_msg` and waits for a fill.  The receiver refuses these quotes, so the test
cannot succeed. -/

namespace EtradePipeline

open Kit.TornLog (framed exists_of_prefix Fragment)
open Kit.Transition

/-! ### The engine with a batch size of one -/

/-- The receiver with its passes of `recvfrom`, and the gateway on the book that the consumer
updates, until a pass goes out of bounds. -/
structure SingleEngine where
  receiver : Receiver
  gateway : Engine
  crashed : Bool

inductive SingleStep where
  | poll (p : Poll)
  | consume
  | gateway (a : EngineStep 1)

namespace SingleEngine

/-- Before the first datagram and the first connection.  The feed of `gateway` does not run: it has
the book. -/
def start (maxSize : Int64) (queue : SpscQueue Event) : SingleEngine :=
  ⟨.start queue 1, .start maxSize queue 1, false⟩

variable (toDouble : Bytes → Option Double) (maxSize : Int64)

/-- What the threads of an engine that has not crashed do.  The consumer pops and applies an event
in one step. -/
def act (s : SingleEngine) : SingleStep → Option SingleEngine
  | .poll p =>
    match s.receiver.poll toDouble p with
    | some receiver => some { s with receiver }
    -- the view has the length -1, and `split_sv` reads on to the end of the memory
    | none => some { s with crashed := true }
  | .consume =>
    let feed := s.gateway.feed
    match s.receiver.queue.pop with
    | (none, queue) => some { s with receiver.queue := queue }
    | (some ev, queue) => some { s with
        receiver.queue := queue
        gateway := s.gateway.withFeed { feed with book := feed.book.applyEvent ev } }
  | .gateway (.feed _) => none
  | .gateway a => (s.gateway.step toDouble maxSize a).map fun gateway => { s with gateway }

/-- The engine after a step, when it is enabled. -/
def step (s : SingleEngine) (a : SingleStep) : Option SingleEngine :=
  if s.crashed then none else s.act toDouble maxSize a

end SingleEngine

/-! ### The test -/

section Test

variable (decode : Bytes → PyStr)

/-- `data`, `got_ack` and `got_fill`. -/
structure Seen where
  data : Bytes
  gotAck : Bool
  gotFill : Bool

def cliId : PyStr := pyStr "cli-test-1"

/-- The texts of the lines that are not empty. -/
def seenTexts (data : Bytes) : List PyStr :=
  ((data.splitOn (byte '\n')).filter (· ≠ [])).map fun ln => strip (decode ln)

/-- The body of the loop for a chunk. -/
def Seen.read (s : Seen) (chunk : Bytes) : Seen :=
  let data := s.data ++ chunk
  let has (kind : String) := (seenTexts decode data).any fun txt => pyStr kind <+: txt ∧
    cliId <:+: txt
  ⟨data, s.gotAck || has "ACK|", s.gotFill || has "FILL|"⟩

/-- The loop over the chunks that come before the end of the stream or a timeout. -/
def readChunks : Seen → List Bytes → Seen
  | s, [] => s
  | s, chunk :: chunks =>
    let s := s.read decode chunk
    if s.gotAck && s.gotFill then s else readChunks s chunks

/-- How the test meets the gateway: it waits in vain for the port, `create_connection` or `sendall`
raises, or `recv` returns the chunks, until it raises, the stream ends or the time is over. -/
inductive Contact where
  | notReady
  | refused
  | served (chunks : List Bytes) (raises : Bool)

/-- What `test_flow` returns, or `none` when it raises. -/
def testFlow : Contact → Option Nat
  | .notReady => some 2
  | .refused => none
  | .served chunks raises =>
    let s := readChunks decode ⟨[], false, false⟩ chunks
    -- the loop is left without another call of `recv` when it has seen both
    if raises && !(s.gotAck && s.gotFill) then none
    else if !s.gotAck then some 3
    else if !s.gotFill then some 4
    else some 0

end Test

/-! ### The quotes -/

section Quotes

variable {toDouble : Bytes → Option Double}

/-- The receiver refuses a text that ends with a newline. -/
theorem receiveEvent_newline (s : Bytes) (recvTsMs : Int) (source : Source) :
    receiveEvent toDouble (s ++ bytes "\n") recvTsMs source = none := by
  by_contra some_
  obtain ⟨ev, received⟩ := Option.ne_none_iff_exists'.mp some_
  obtain ⟨fields, parsed, -⟩ := receiveEvent_eq_some.mp received
  obtain ⟨seq, msgTs, price, size, split, -, -, -, converted⟩ := parse_eq_ok.mp parsed
  obtain ⟨i, -, text⟩ := exists_integer_of_toLl converted
  have joined : [byte '|'].intercalate ((s ++ bytes "\n").splitOn (byte '|')) = s ++ bytes "\n" :=
    List.intercalate_splitOn _
  rw [split] at joined
  have last : byte '\n' ∈ byte '|' :: size := by
    have text : [byte '|'].intercalate [seq, msgTs, fields.symbol, price, size] =
        [byte '|'].intercalate [seq, msgTs, fields.symbol, price] ++ byte '|' :: size := by
      simp [List.intercalate_cons_cons]
    have ends := congrArg List.getLast? (text.symm.trans joined)
    rw [show bytes "\n" = [byte '\n'] from rfl, List.getLast?_concat,
      List.getLast?_append_of_ne_nil _ (List.cons_ne_nil _ _)] at ends
    exact List.mem_of_getLast? ends
  rcases List.mem_cons.mp last with bar | inside
  · exact absurd bar (by decide)
  · exact absurd (i.text_subset (text ▸ inside)) (by decide)

/-- A pass that gets quotes of the test pushes nothing. -/
theorem Receiver.poll_refused {r r' : Receiver} {p : Poll}
    (refused : ∀ d ∈ p.first, ∃ s, d.payload = s ++ bytes "\n")
    (stepped : r.poll toDouble p = some r') :
    r'.queue = r.queue := by
  obtain ⟨first, second, recvTsMs⟩ := p
  unfold Receiver.poll at stepped
  cases first with
  | none => cases second <;> cases stepped; rfl
  | some d =>
    cases second with
    | none =>
      cases stepped
      rfl
    | some other =>
      obtain ⟨s, text⟩ := refused d rfl
      simp only [PacketBuf.view_recv _ d (by decide : 8192 ≤ 65536), text, receiveEvent_newline]
        at stepped
      cases stepped
      rfl

end Quotes

/-! ### The gateway without a feed -/

/-- Without events, no client is sent a fill. -/
theorem Engine.unfilled {toDouble : Bytes → Option Double} {maxSize : Int64}
    {queue : SpscQueue Event}
    {b : UInt64} {steps : List (EngineStep b)} {e : Engine} (holds : queue.Represents 0 [] [])
    (quiet : Engine.feedSteps steps = [])
    (ran : run (Engine.step toDouble maxSize) (Engine.start maxSize queue b) steps = some e) :
    ∀ h ∈ e.handlers, ∀ r ∈ h.sent, r.fill? = none := by
  intro h member r sent
  obtain ⟨linear, -, served⟩ := Engine.linear_of_run queue ran
  have backed :=
    Market.trades_backed
      ((Engine.effects toDouble maxSize (Engine.start maxSize queue b) steps).map Effect.trade)
      Market.start_backed
  have none : Engine.receivedEvents toDouble steps = [] := by rw [Engine.receivedEvents, quiet]; rfl
  have events := (linear.events_subperm (none ▸ Engine.applied_sublist holds ran)).subset
  rcases List.mem_append.mp sent with before | now
  · obtain ⟨x, answered, inside⟩ := List.mem_flatMap.mp before
    have quoted := linear.quoted backed events member (served h member) answered
    have unfilled : x.fills = [] := by
      unfold Exchange.Quoted at quoted
      split at quoted
      · refine List.eq_nil_iff_forall_not_mem.mpr fun f listed => ?_
        obtain ⟨-, -, ev, received, -⟩ := quoted.1 f listed
        exact List.not_mem_nil received
      · exact quoted
    cases own : r.fill? with
    | none => rfl
    | some f =>
      have listed : f ∈ x.fills := List.mem_filterMap.mpr ⟨r, inside, own⟩
      exact absurd (unfilled ▸ listed) List.not_mem_nil
  · cases at_ : h.handling with
    | reading =>
      rw [at_] at now
      cases now
    | submitting line ord call =>
      rw [at_] at now
      rw [List.mem_singleton.mp now, Response.fill?_ack]

namespace SingleEngine

variable {toDouble : Bytes → Option Double} {maxSize : Int64} {q : SpscQueue Event}
  {s s' : SingleEngine}

/-- The first buffer of a pass, which is the one that is parsed, gets quotes of the test only. -/
def OnlyTestQuotes (steps : List SingleStep) : Prop :=
  ∀ p, .poll p ∈ steps → ∀ d ∈ p.first, ∃ seq msgTsMs symbol price size,
    d.payload = sendUdpMsg seq msgTsMs symbol price size

/-- The queue is empty, and the gateway has run alone. -/
def Quiet (toDouble : Bytes → Option Double) (maxSize : Int64) (q : SpscQueue Event)
    (s : SingleEngine) : Prop :=
  (∃ first, s.receiver.queue.Represents first [] []) ∧ ∃ steps : List (EngineStep 1),
    Engine.feedSteps steps = [] ∧
      run (Engine.step toDouble maxSize) (Engine.start maxSize q 1) steps = some s.gateway

theorem Quiet.alone (quiet : s.Quiet toDouble maxSize q) {a : EngineStep 1} {gateway : Engine}
    (other : ∀ feed, a ≠ .feed feed) (stepped : s.gateway.step toDouble maxSize a = some gateway) :
    Quiet toDouble maxSize q { s with gateway } := by
  obtain ⟨empty, steps, none, ran⟩ := quiet
  refine ⟨empty, steps ++ [a], ?_, ?_⟩
  · clear ran
    induction steps with
    | nil => cases a <;> first | rfl | exact absurd rfl (other _)
    | cons first steps ih => cases first <;> first | cases none | exact ih none
  · rw [run_append, ran, Option.bind_some, run_cons, stepped]
    rfl

theorem quiet_step {a : SingleStep} (quiet : s.Quiet toDouble maxSize q)
    (only : OnlyTestQuotes [a]) (stepped : s.step toDouble maxSize a = some s') :
    s'.Quiet toDouble maxSize q := by
  obtain ⟨⟨first, holds⟩, alone⟩ := quiet
  unfold step at stepped
  split_ifs at stepped
  cases a with
  | poll p =>
    simp only [act] at stepped
    split at stepped <;> cases stepped
    · rename_i receiver polled
      have same := Receiver.poll_refused (fun d got => by
        obtain ⟨seq, msgTsMs, symbol, price, size, text⟩ := only p (List.mem_singleton_self _) d got
        exact ⟨_, text⟩) polled
      exact ⟨⟨first, same ▸ holds⟩, alone⟩
    · exact ⟨⟨first, holds⟩, alone⟩
  | consume =>
    obtain ⟨none, -, first', left⟩ := SpscQueue.pop_takes holds
    simp only [act] at stepped
    split at stepped
    · rename_i popped
      cases stepped
      rw [popped] at left
      exact ⟨⟨first', left⟩, alone⟩
    · rename_i popped
      rw [popped] at none
      cases none
  | gateway a =>
    have quiet : s.Quiet toDouble maxSize q := ⟨⟨first, holds⟩, alone⟩
    cases a with
    | feed a => cases stepped
    | accept | recv | take | advance =>
      simp only [act] at stepped
      obtain ⟨gateway, moved, rfl⟩ := Option.map_eq_some_iff.mp stepped
      exact quiet.alone (by simp) moved

theorem quiet_run {steps : List SingleStep} (holds : q.Represents 0 [] [])
    (only : OnlyTestQuotes steps)
    (ran : run (step toDouble maxSize) (start maxSize q) steps = some s) :
    s.Quiet toDouble maxSize q := by
  refine run_history (P := fun done s => OnlyTestQuotes done → s.Quiet toDouble maxSize q)
    (fun _ => ⟨⟨0, holds⟩, [], rfl, rfl⟩) (fun done a mid _ _ quiet stepped only => ?_) ran only
  exact quiet_step (quiet fun p member => only p (List.mem_append_left _ member))
    (fun p member => only p (List.mem_append_right _ member)) stepped

end SingleEngine

/-! ### What the test sees -/

section Seeing

variable {decode : Bytes → PyStr} {rs : List Response}

theorem head_of_unfilled {r : Response} (unfilled : r.fill? = none) :
    ∃ c rest, r.line = c :: rest ∧ c ∈ bytes "ARC" := by
  rw [Response.line_eq]
  cases r with
  | ack clid => exact ⟨byte 'A', _, rfl, by decide⟩
  | rej clid reason => exact ⟨byte 'R', _, rfl, by decide⟩
  | fill f => cases unfilled
  | cal clid canceled => exact ⟨byte 'C', _, rfl, by decide⟩

/-- The start of a stream without fills has no line that starts like one. -/
theorem not_fill_of_part (ascii : ∀ (c : UInt8) (s : Bytes), c < 128 →
    ∃ t, decode (c :: s) = c.toNat :: t)
    (unmarked : ∀ r ∈ rs, ∀ f ∈ r.fields, Unmarked f) (unfilled : ∀ r ∈ rs, r.fill? = none)
    {data : Bytes} (part : data <+: rs.flatMap Response.text) :
    ∀ txt ∈ seenTexts decode data, ¬ pyStr "FILL|" <+: txt := by
  intro txt member begins
  obtain ⟨ln, kept, rfl⟩ := List.mem_map.mp member
  obtain ⟨piece, filled⟩ := List.mem_filter.mp kept
  obtain empty | ⟨line, listed, inside⟩ := Kit.TornLog.Log.splitOn_of_prefix (stream_eq rs ▸ part)
    (newline_notMem_responses unmarked) ln piece
  · exact absurd empty (of_decide_eq_true filled)
  obtain ⟨r, sent, rfl⟩ := List.mem_map.mp listed
  obtain ⟨c, rest, starts, among⟩ := head_of_unfilled (unfilled r sent)
  obtain ⟨d, more, rfl⟩ := List.exists_cons_of_ne_nil (of_decide_eq_true filled)
  obtain ⟨same, -⟩ := List.cons_prefix_cons.mp (starts ▸ inside)
  subst same
  have letter : ∀ c ∈ bytes "ARC", c < 128 ∧ isPySpace c.toNat = false ∧
      c.toNat ≠ (byte 'F').toNat := by
    decide +kernel
  obtain ⟨small, visible, other⟩ := letter d among
  obtain ⟨t, decoded⟩ := ascii d more small
  have stripped : strip (decode (d :: more)) <+: d.toNat :: t := by
    rw [strip, decoded, List.dropWhile_cons_of_neg (by simp [visible])]
    exact List.rdropWhile_prefix _ _
  exact other (List.cons_prefix_cons.mp (begins.trans stripped)).1.symm

/-- Chunks of such a stream show no fill. -/
theorem readChunks_gotFill (ascii : ∀ (c : UInt8) (s : Bytes), c < 128 →
    ∃ t, decode (c :: s) = c.toNat :: t)
    (unmarked : ∀ r ∈ rs, ∀ f ∈ r.fields, Unmarked f) (unfilled : ∀ r ∈ rs, r.fill? = none)
    (chunks : List Bytes) (s : Seen) (part : s.data ++ chunks.flatten <+: rs.flatMap Response.text)
    (before : s.gotFill = false) : (readChunks decode s chunks).gotFill = false := by
  induction chunks generalizing s with
  | nil => exact before
  | cons chunk chunks ih =>
    rw [List.flatten_cons, ← List.append_assoc] at part
    have none := not_fill_of_part ascii unmarked unfilled ((List.prefix_append _ _).trans part)
    have now : (s.read decode chunk).gotFill = false := by
      simp only [Seen.read, before, Bool.false_or, List.any_eq_false, decide_eq_true_eq]
      exact fun txt member found => none txt member found.1
    simp only [readChunks]
    split_ifs
    · exact now
    · exact ih _ part now

end Seeing

open SingleEngine

def testSource : Source := ⟨(127, 0, 0, 1), 40000⟩

/-- The two quotes of the test. -/
def testPoll : Poll where
  first := some ⟨sendUdpMsg 1 1000 (bytes "AAPL") (.finite 100) 100, testSource, by decide +kernel⟩
  second := some ⟨sendUdpMsg 2 1050 (bytes "AAPL") (.finite 101) 50, testSource, by decide +kernel⟩
  recvTsMs := 1060

/-- The test with its order. -/
def testSteps : List SingleStep :=
  [.poll testPoll, .consume, .gateway .accept,
    .gateway (.recv 0 (.of (byte 'O') (bytes "RDER|cli-test-1|BUY|AAPL|102.00|10\n"))),
    .gateway (.take 0)] ++ List.replicate 4 (.gateway (.advance 0))

end EtradePipeline
