import EtradePipeline.Queue.SpscQueue
import EtradePipeline.Receiver.Record

/-! The two receive paths of `run_udp_receiver`.  With a batch size above one a pass takes a group
of datagrams by `recvmmsg`.  Otherwise a pass calls `recvfrom` twice, into two buffers, and parses
the first with the second's source.  Writes to the record file are taken to succeed. -/

namespace EtradePipeline

/-- A datagram of at most 8192 bytes. -/
structure Datagram where
  payload : Bytes
  source : Source
  fits : payload.length ≤ 8192
  deriving DecidableEq

structure PacketBuf (size : Nat) where
  bytes : Bytes
  sized : bytes.length = size

namespace PacketBuf

variable {size : Nat}

def zero (size : Nat) : PacketBuf size := ⟨List.replicate size 0, List.length_replicate ..⟩

/-- The receipt of a datagram: the number of bytes received, and the buffer with these at its
start. -/
def recv (buf : PacketBuf size) (d : Datagram) : Nat × PacketBuf size :=
  (min d.payload.length size,
    ⟨d.payload.take size ++ buf.bytes.drop d.payload.length, by
      rw [List.length_append, List.length_take, List.length_drop, buf.sized]
      omega⟩)

/-- The view of the first `n` bytes. -/
def view (buf : PacketBuf size) (n : Nat) : Bytes := buf.bytes.take n

/-- The bytes received are those of the datagram, whatever the buffer held before. -/
theorem view_recv (buf : PacketBuf size) (d : Datagram) (large : 8192 ≤ size) :
    (buf.recv d).2.view (buf.recv d).1 = d.payload := by
  have fits := d.fits.trans large
  simp only [recv, view, min_eq_left fits, List.take_of_length_le fits]
  exact List.take_left

end PacketBuf

/-! ### The state -/

/-- The state of `run_udp_receiver` with its queue, the lines of the record file and its metrics,
and the record of the run: the events that the queue accepted, and each parsed datagram with the
bytes that were parsed for it. -/
structure Receiver where
  queue : SpscQueue Event
  buffer : PacketBuf 65536
  batchBufs : List (PacketBuf 8192)
  lines : List Line
  processed : UInt64
  dropped : UInt64
  batchesReceived : UInt64
  lastLatencyMs : Int
  accepted : List Event
  parsed : List (Datagram × Bytes)

/-- What the two `recvfrom` calls of a pass return, each a datagram or nothing, and the time read
after them. -/
structure Poll where
  first : Option Datagram
  second : Option Datagram
  recvTsMs : Int

/-- A datagram of a group, with the time read when the loop comes to it. -/
structure Arrival where
  datagram : Datagram
  recvTsMs : Int

/-- What `recvmmsg` returns: up to `batchSize` datagrams, none on a timeout. -/
structure Group (batchSize : UInt64) where
  arrivals : List Arrival
  batched : 1 < batchSize
  fits : arrivals.length ≤ batchSize.toNat

/-- A step of a receive path: a pop by the consumer, or a pass of the loop. -/
inductive PathStep (Pass : Type) where
  | consume
  | receive (pass : Pass)

/-- The passes among the steps. -/
def passes {Pass : Type} : List (PathStep Pass) → List Pass
  | [] => []
  | .consume :: steps => passes steps
  | .receive pass :: steps => pass :: passes steps

namespace Receiver

/-- The receiver before its loop. -/
def start (queue : SpscQueue Event) (batchSize : UInt64) : Receiver :=
  { queue
    buffer := .zero 65536
    batchBufs := if 1 < batchSize then List.replicate batchSize.toNat (.zero 8192) else []
    lines := [], processed := 0, dropped := 0, batchesReceived := 0, lastLatencyMs := -1,
    accepted := [], parsed := [] }

/-- The latency and the record lines of events. -/
def record (r : Receiver) (events : List Event) : Receiver :=
  { r with
    lastLatencyMs := (events.getLast?).elim r.lastLatencyMs Event.latencyMs
    lines := r.lines ++ events.map recordLine }

/-- The push of the event of a single datagram. -/
def pushEvent (r : Receiver) (ev : Event) : Receiver :=
  let (pushed, queue) := r.queue.pushBulk ⟨[ev], by simp⟩
  { r with
    queue
    processed := if 0 < pushed then r.processed + 1 else r.processed
    dropped := if 0 < pushed then r.dropped else r.dropped + 1
    accepted := r.accepted ++ [ev].take pushed.toNat }

/-- The push of the events of a group. -/
def pushEvents (r : Receiver) (events : Batch Event) : Receiver :=
  if events.items.isEmpty then r
  else
    let (pushed, queue) := r.queue.pushBulk events
    { r with
      queue
      processed := r.processed + pushed
      dropped := if pushed < events.n then r.dropped + (events.n - pushed) else r.dropped
      accepted := r.accepted ++ events.items.take pushed.toNat }

variable (toDouble : Bytes → Option Double)

/-- A pass of the `recvfrom` path, or `none` when it goes out of bounds: when only the first call
fails its result of -1 becomes the length of the view. -/
def poll (r : Receiver) (p : Poll) : Option Receiver :=
  match p.first, p.second with
  | none, none => some r
  | some d, none => some { r with buffer := (r.buffer.recv d).2 }
  | none, some _ => none
  | some d, some other =>
    let (n, buffer) := r.buffer.recv d
    let sv := buffer.view n
    let r := { r with buffer, parsed := r.parsed ++ [(d, sv)] }
    match receiveEvent toDouble sv p.recvTsMs other.source with
    | none => some r
    | some ev => some ((r.record [ev]).pushEvent ev)

/-- The events that the loop over a group builds, of each arrival and the view of its buffer. -/
def buildEvents (views : List (Arrival × Bytes)) : List Event :=
  views.filterMap fun (a, sv) => receiveEvent toDouble sv a.recvTsMs a.datagram.source

/-- The datagrams of a group in the buffers: for each the length received and the buffer. -/
def messages (r : Receiver) {b : UInt64} (g : Group b) : List (Nat × PacketBuf 8192) :=
  List.zipWith (fun buf a => buf.recv a.datagram) r.batchBufs g.arrivals

/-- The views that the loop over a group parses. -/
def views (r : Receiver) {b : UInt64} (g : Group b) : List (Arrival × Bytes) :=
  g.arrivals.zip ((r.messages g).map fun (n, buf) => buf.view n)

theorem buildEvents_length_lt (r : Receiver) {b : UInt64} (g : Group b) :
    (buildEvents toDouble (r.views g)).length < 2 ^ 64 := by
  have few : (buildEvents toDouble (r.views g)).length ≤ (r.views g).length :=
    List.length_filterMap_le _ _
  have within : (r.views g).length ≤ g.arrivals.length := by
    rw [views, List.length_zip]
    exact min_le_left _ _
  have fits := g.fits
  have bound := b.toNat_lt
  omega

/-- A pass of the `recvmmsg` path. -/
def group {b : UInt64} (r : Receiver) (g : Group b) : Receiver :=
  if g.arrivals.isEmpty then r
  else
    let views := r.views g
    let events : Batch Event := ⟨buildEvents toDouble views, buildEvents_length_lt toDouble r g⟩
    let r := { r with
      batchBufs := (r.messages g).map Prod.snd ++ r.batchBufs.drop g.arrivals.length
      batchesReceived := r.batchesReceived + 1
      parsed := r.parsed ++ views.map (Prod.map Arrival.datagram id) }
    (r.record events.items).pushEvents events

def consume (r : Receiver) : Receiver := { r with queue := r.queue.pop.2 }

/-- A step of a receiver with a batch size of one. -/
def pollStep (r : Receiver) : PathStep Poll → Option Receiver
  | .consume => some r.consume
  | .receive p => r.poll toDouble p

/-- A step of a receiver with a batch size of `b`. -/
def groupStep (b : UInt64) (r : Receiver) : PathStep (Group b) → Option Receiver
  | .consume => some r.consume
  | .receive g => some (r.group toDouble g)

end Receiver

end EtradePipeline
