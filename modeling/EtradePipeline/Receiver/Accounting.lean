import EtradePipeline.Book.OrderBook
import EtradePipeline.Queue.Accesses
import EtradePipeline.Receiver.Agreement

/-! The batched receive path with the consumer beside it, in the single accesses of the queue that
they share.  A pass parses what `recvmmsg` returned, runs `push_bulk` and counts what it returned,
while the consumer pops and applies events in between. -/

namespace EtradePipeline

open Kit.Transition

/-- Where the receive loop is: at `recvmmsg`, in `push_bulk`, or before the counters, with the
number that `push_bulk` returned. -/
inductive ReceiveStage where
  | receiving
  | pushing (batch : Batch Event)
  | counting (batch : Batch Event) (pushed : Nat)

/-- A `push_bulk` that has returned: the events of its batch, the number that it returned, and the
free slots that there were when it loaded the head. -/
structure PushRecord where
  items : List Event
  pushed : Nat
  freeSlots : Nat

/-- The receiver, the queue with both its sides, and the consumer with the event that it has popped
and not yet applied, together with the record of the run: the events applied and the bulk pushes. -/
structure Pipeline where
  receiver : Receiver
  machine : Machine Event
  stage : ReceiveStage
  inHand : Option Event
  book : OrderBook
  applied : List Event
  pushes : List PushRecord

/-- A step: a return of `recvmmsg` with the parse of its datagrams and the first access of
`push_bulk`, the next access of `push_bulk`, the counters, an access of `pop`, or the call of
`apply_event`. -/
inductive PipelineStep (b : UInt64) where
  | receive (g : Group b)
  | push
  | count
  | pop
  | consume
  | apply

/-- The events that a bulk push has put into the queue. -/
def PushRecord.taken (r : PushRecord) : List Event := r.items.take r.pushed

/-- The groups that a run receives. -/
def receivedGroups {b : UInt64} (steps : List (PipelineStep b)) : List (Group b) :=
  steps.filterMap fun
    | .receive g => some g
    | _ => none

namespace Receiver

variable (toDouble : Bytes → Option Double)

/-- The loop over a group: the receiver after it, and the events that it built. -/
def parseGroup {b : UInt64} (r : Receiver) (g : Group b) : Receiver × Batch Event :=
  let views := r.views g
  let events : Batch Event := ⟨buildEvents toDouble views, buildEvents_length_lt toDouble r g⟩
  let r := { r with
    batchBufs := (r.messages g).map Prod.snd ++ r.batchBufs.drop g.arrivals.length
    batchesReceived := r.batchesReceived + 1
    parsed := r.parsed ++ views.map (Prod.map Arrival.datagram id) }
  (r.record events.items, events)

/-- The counters behind a `push_bulk` that returned `pushed`. -/
def countPush (r : Receiver) (batch : Batch Event) (pushed : UInt64) : Receiver :=
  { r with
    processed := r.processed + pushed
    dropped := if pushed < batch.n then r.dropped + (batch.n - pushed) else r.dropped
    accepted := r.accepted ++ batch.items.take pushed.toNat }

/-- A pass is the loop, the push and the counters. -/
theorem group_eq {b : UInt64} (r : Receiver) (g : Group b) (some : g.arrivals ≠ []) :
    r.group toDouble g =
      let (r, events) := r.parseGroup toDouble g
      if events.items = [] then r
      else
        let (pushed, queue) := r.queue.pushBulk events
        { r with queue }.countPush events pushed := by
  rw [group, if_neg (mt List.isEmpty_iff.mp some)]
  simp only [parseGroup, pushEvents, List.isEmpty_iff]
  by_cases none : buildEvents toDouble (r.views g) = []
  · simp only [none, if_true]
  · simp only [none, if_false]
    rfl

end Receiver

namespace Pipeline

variable (toDouble : Bytes → Option Double)

/-- Before the first pass, with the book that the consumer works on. -/
def start (queue : SpscQueue Event) (b : UInt64) (book : OrderBook) : Pipeline :=
  ⟨.start queue b, .start queue, .receiving, none, book, [], []⟩

/-- The pipeline after an access. -/
def moved (p : Pipeline) (machine : Machine Event) : Pipeline :=
  { p with machine, receiver := { p.receiver with queue := machine.queue } }

def receive {b : UInt64} (p : Pipeline) (g : Group b) : Option Pipeline :=
  match p.stage with
  | .receiving =>
    if g.arrivals.isEmpty then some p
    else
      let (receiver, events) := p.receiver.parseGroup toDouble g
      let p := { p with receiver }
      if events.items.isEmpty then some p
      else (p.machine.step (.pushBulk events)).map fun machine =>
        { p.moved machine with stage := .pushing events }
  | _ => none

def push (p : Pipeline) : Option Pipeline :=
  match p.stage with
  | .pushing batch => p.machine.produce.map fun machine =>
    match machine.producer, machine.results with
    | .idle, result :: _ => { p.moved machine with
        stage := .counting batch result.pushed
        pushes := p.pushes ++ [⟨batch.items, result.pushed, result.room⟩] }
    | _, _ => p.moved machine
  | _ => none

def count (p : Pipeline) : Option Pipeline :=
  match p.stage with
  | .counting batch pushed => some { p with
      receiver := p.receiver.countPush batch (UInt64.ofNat pushed)
      stage := .receiving }
  | _ => none

/-- An access of the consumer, which has an event in hand after the last access of a `pop`. -/
def consume (p : Pipeline) : Option Pipeline :=
  (p.machine.step .consume).map fun machine =>
    match p.machine.consumer with
    | .storeHead _ ev => { p.moved machine with inHand := some ev }
    | _ => p.moved machine

def apply (p : Pipeline) : Option Pipeline :=
  p.inHand.map fun ev => { p with
    inHand := none
    book := p.book.applyEvent ev
    applied := p.applied ++ [ev] }

/-- The pipeline after a step, when it is enabled. -/
def step {b : UInt64} (p : Pipeline) : PipelineStep b → Option Pipeline
  | .receive g => p.receive toDouble g
  | .push => p.push
  | .count => p.count
  | .pop => if p.inHand = none then (p.machine.step .pop).map p.moved else none
  | .consume => p.consume
  | .apply => p.apply

/-! ### The accesses of a bulk push -/

/-- What the stage of the receive loop says of the producer. -/
def AtStage (m : Machine Event) : ReceiveStage → Prop
  | .receiving => m.producer = .idle
  | .pushing batch => (∃ head, m.producer = .loadTail batch head) ∨
      ∃ tail toPush i, m.producer = .writeBatch batch tail toPush i ∧
        m.pending.map Prod.fst = batch.items.take i.toNat
  | .counting batch pushed => m.producer = .idle ∧ pushed ≤ batch.items.length

variable {m m' : Machine Event} {batch : Batch Event}

theorem batch_n_ne_zero (some : batch.items ≠ []) : batch.n ≠ 0 := by
  intro none
  have count : batch.n.toNat = batch.items.length := UInt64.toNat_ofNat_of_lt' batch.fits
  rw [none] at count
  exact some (List.eq_nil_of_length_eq_zero count.symm)

theorem pushBulk_starts (idle : m.producer = .idle) (some : batch.items ≠ []) :
    m.step (.pushBulk batch) =
      .some { m.seeHead with producer := .loadTail batch m.queue.head } := by
  simp [Machine.step, idle, batch_n_ne_zero some]

/-- The end of a bulk push: it returns the number of free slots, or of its events when these are
fewer, and has accepted so many of them. -/
structure Pushed (m m' : Machine Event) (batch : Batch Event) (pushed : Nat) : Prop where
  idle : m'.producer = .idle
  result : m'.results.head? = some ⟨batch.items.length, pushed, m.seenRoom⟩
  most : pushed = min batch.items.length m.seenRoom
  accepted : m'.accepted.map Prod.fst = m.accepted.map Prod.fst ++ batch.items.take pushed

/-- An access of a bulk push goes on with it or ends it. -/
theorem produce_cases (inv : m.Inv) (at_ : AtStage m (.pushing batch))
    (stepped : m.produce = some m') :
    m'.popped = m.popped ∧ m'.consumer = m.consumer ∧
      (m'.producer ≠ .idle ∧ AtStage m' (.pushing batch) ∧ m'.accepted = m.accepted ∨
        ∃ pushed, Pushed m m' batch pushed) := by
  have asked : batch.n.toNat = batch.items.length := UInt64.toNat_ofNat_of_lt' batch.fits
  have inv' := Machine.inv_produce inv stepped
  have producer := inv.producer
  rcases at_ with ⟨head, stage⟩ | ⟨tail, toPush, i, stage, written⟩
  · rw [stage] at producer
    obtain ⟨none, -⟩ := producer
    simp only [Machine.produce, stage] at stepped
    split_ifs at stepped with full
    · cases stepped
      have room := inv'.results _ List.mem_cons_self
      simp only [asked] at room
      refine ⟨rfl, rfl, .inr ⟨0, rfl, ?_, ?_, ?_⟩⟩
      · simp [Machine.finish, asked]
      · omega
      · simp [Machine.finish]
    · cases stepped
      refine ⟨rfl, rfl, .inl ⟨by simp, .inr ⟨_, _, 0, rfl, ?_⟩, rfl⟩⟩
      simp [none]
  · rw [stage] at producer
    obtain ⟨-, count, behind, most, -⟩ := producer
    rw [UInt64.le_iff_toNat_le] at behind
    simp only [Machine.produce, stage] at stepped
    split_ifs at stepped with more
    · rw [UInt64.lt_iff_toNat_lt] at more
      have inside : i.toNat < batch.items.length := by omega
      rw [List.getElem?_eq_getElem inside] at stepped
      cases stepped
      have next := SpscQueue.toNat_add_one more
      refine ⟨rfl, rfl, .inl ⟨by simp, .inr ⟨tail, toPush, i + 1, rfl, ?_⟩, rfl⟩⟩
      simp only [Machine.write, List.map_append, written, next, List.take_add_one,
        List.getElem?_eq_getElem inside]
      rfl
    · cases stepped
      rw [UInt64.lt_iff_toNat_lt] at more
      have all : i.toNat = toPush.toNat := by omega
      refine ⟨rfl, rfl, .inr ⟨toPush.toNat, rfl, ?_, most, ?_⟩⟩
      · simp [Machine.finish, Machine.publish, asked]
      · simp [Machine.finish, Machine.publish, written, all]

/-- The item that the next access of the consumer hands out. -/
def handed (m : Machine Event) : List Event :=
  match m.consumer with
  | .storeHead _ item => [item]
  | _ => []

theorem consume_frame (stepped : m.consume = some m') :
    m'.producer = m.producer ∧ m'.pending = m.pending ∧ m'.accepted = m.accepted ∧
      m'.popped = m.popped ++ handed m ∧ (handed m ≠ [] → m'.consumer = .idle) := by
  unfold Machine.consume at stepped
  cases stage : m.consumer with
  | idle =>
    rw [stage] at stepped
    cases stepped
  | loadTail head =>
    rw [stage] at stepped
    simp only at stepped
    split_ifs at stepped <;> cases stepped <;> simp [handed, stage]
  | readItem head =>
    rw [stage] at stepped
    cases stepped
    simp [handed, stage]
  | storeHead head item =>
    rw [stage] at stepped
    cases stepped
    simp [handed, stage]

/-! ### The invariant -/

/-- The batch of a bulk push that has not returned. -/
def unreturned (p : Pipeline) : List (List Event) :=
  match p.stage with
  | .pushing batch => [batch.items]
  | _ => []

/-- The batches that have come to a bulk push. -/
def batches (p : Pipeline) : List (List Event) := p.pushes.map PushRecord.items ++ p.unreturned

/-- The events that the bulk pushes have put into the queue. -/
def taken (p : Pipeline) : List Event := p.pushes.flatMap PushRecord.taken

/-- The events that the bulk pushes have left behind. -/
def lost (p : Pipeline) : List Event := p.pushes.flatMap fun r => r.items.drop r.pushed

/-- What the last bulk push adds to the processed and the dropped counter, once it is counted. -/
def uncounted (p : Pipeline) : Nat × Nat :=
  match p.stage with
  | .counting batch pushed => (pushed, batch.items.length - pushed)
  | _ => (0, 0)

structure Inv (m : Nat) (book : OrderBook) (p : Pipeline) : Prop where
  machine : p.machine.Inv
  stage : AtStage p.machine p.stage
  bufs : p.receiver.batchBufs.length = m
  accepted : p.machine.accepted.map Prod.fst = p.taken
  most : ∀ r ∈ p.pushes, r.pushed = min r.items.length r.freeSlots
  processed : p.receiver.processed + UInt64.ofNat p.uncounted.1 = UInt64.ofNat p.taken.length
  dropped : p.receiver.dropped + UInt64.ofNat p.uncounted.2 = UInt64.ofNat p.lost.length
  popped : p.machine.popped = p.applied ++ p.inHand.toList
  folded : p.book = p.applied.foldl OrderBook.applyEvent book
  free : p.inHand ≠ none → p.machine.consumer = .idle

variable {toDouble : Bytes → Option Double} {p p' : Pipeline} {n : Nat} {book : OrderBook}
  {b : UInt64}

theorem parseGroup_spec {r : Receiver} {g : Group b}
    (fits : g.arrivals.length ≤ r.batchBufs.length) :
    (r.parseGroup toDouble g).2.items = g.events toDouble ∧
      (r.parseGroup toDouble g).1.batchBufs.length = r.batchBufs.length := by
  constructor
  · simp only [Receiver.parseGroup, Receiver.buildEvents, Receiver.views_eq fits,
      List.filterMap_map]
    rfl
  · simp only [Receiver.parseGroup, Receiver.record, Receiver.messages, List.length_append,
      List.length_map, List.length_zipWith, List.length_drop]
    omega

/-- The loop over a group counts nothing. -/
theorem Inv.parse (inv : p.Inv n book) {receiver : Receiver} (bufs : receiver.batchBufs.length = n)
    (processed : receiver.processed = p.receiver.processed)
    (dropped : receiver.dropped = p.receiver.dropped) : Inv n book { p with receiver } := by
  refine ⟨inv.machine, inv.stage, bufs, inv.accepted, inv.most, ?_, ?_, inv.popped,
    inv.folded, inv.free⟩
  · show receiver.processed + _ = _
    rw [processed]
    exact inv.processed
  · show receiver.dropped + _ = _
    rw [dropped]
    exact inv.dropped

theorem inv_receive {g : Group b} (inv : p.Inv n book) (own : 1 < b → n = b.toNat)
    (stepped : p.receive toDouble g = some p') : p'.Inv n book ∧
      p'.batches = p.batches ++ [g.events toDouble].filter (· ≠ []) := by
  have fits : g.arrivals.length ≤ p.receiver.batchBufs.length := by
    rw [inv.bufs, own g.batched]
    exact g.fits
  obtain ⟨events, bufs⟩ := @parseGroup_spec toDouble _ _ _ fits
  unfold receive at stepped
  split at stepped
  case h_2 => cases stepped
  case h_1 at_ =>
    split_ifs at stepped with none
    · cases stepped
      have none : g.events toDouble = [] := by
        rw [Group.events, List.isEmpty_iff.mp none]
        rfl
      exact ⟨inv, by simp [none]⟩
    · have parsed := inv.parse (bufs.trans inv.bufs) rfl rfl
      simp only [List.isEmpty_iff, events] at stepped
      split_ifs at stepped with empty
      · cases stepped
        refine ⟨parsed, ?_⟩
        simp only [empty, batches, unreturned]
        simp
      · have idle := inv.stage
        rw [at_] at idle
        rw [pushBulk_starts idle (events ▸ empty)] at stepped
        cases stepped
        have started : Machine.Inv { p.machine.seeHead with
            producer := .loadTail (p.receiver.parseGroup toDouble g).2 p.machine.queue.head } :=
          Machine.inv_step inv.machine (pushBulk_starts idle (events ▸ empty))
        refine ⟨⟨started, .inl ⟨_, rfl⟩, parsed.bufs, inv.accepted, inv.most, ?_, ?_,
          inv.popped, inv.folded, inv.free⟩, ?_⟩
        · have processed := inv.processed
          simp only [uncounted, at_] at processed
          exact processed
        · have dropped := inv.dropped
          simp only [uncounted, at_] at dropped
          exact dropped
        · simp only [batches, unreturned, at_, events]
          simp [empty, moved]

theorem inv_push (inv : p.Inv n book) (stepped : p.push = some p') :
    p'.Inv n book ∧ p'.batches = p.batches := by
  unfold push at stepped
  split at stepped
  case h_2 => cases stepped
  case h_1 batch at_ =>
    obtain ⟨machine, produced, rfl⟩ := Option.map_eq_some_iff.mp stepped
    have stage := inv.stage
    have processed := inv.processed
    have dropped := inv.dropped
    rw [at_] at stage
    simp only [uncounted, at_] at processed dropped
    have machineInv := Machine.inv_produce inv.machine produced
    obtain ⟨popped, consumer, ⟨busy, going, accepted⟩ | ⟨pushed, ended⟩⟩ :=
      produce_cases inv.machine stage produced
    · have same : (match machine.producer, machine.results with
          | .idle, result :: _ => { p.moved machine with
              stage := .counting batch result.pushed
              pushes := p.pushes ++ [⟨batch.items, result.pushed, result.room⟩] }
          | _, _ => p.moved machine) = p.moved machine := by
        cases producer : machine.producer with
        | idle => exact absurd producer busy
        | _ => rfl
      rw [same]
      refine ⟨⟨machineInv, by simpa [moved, at_] using going, inv.bufs, ?_, inv.most, ?_, ?_, ?_,
        inv.folded, ?_⟩, rfl⟩
      · exact (congrArg _ accepted).trans inv.accepted
      · simpa [moved, uncounted, at_, taken] using processed
      · simpa [moved, uncounted, at_, lost] using dropped
      · exact popped.trans inv.popped
      · exact fun some => consumer.trans (inv.free some)
    · obtain ⟨more, results⟩ := List.head?_eq_some_iff.mp ended.result
      rw [ended.idle, results]
      have bound : pushed ≤ batch.items.length := by
        have := ended.most
        omega
      let latest : PushRecord := ⟨batch.items, pushed, p.machine.seenRoom⟩
      have grown : (p.pushes ++ [latest]).flatMap PushRecord.taken =
          p.taken ++ batch.items.take pushed := by
        simp [taken, PushRecord.taken, latest]
      refine ⟨⟨machineInv, ⟨ended.idle, bound⟩, inv.bufs, ?_, ?_, ?_, ?_,
        popped.trans inv.popped, inv.folded, fun some => consumer.trans (inv.free some)⟩, ?_⟩
      · rw [taken, grown, ← inv.accepted]
        exact ended.accepted
      · intro r mem
        rcases List.mem_append.mp mem with old | new
        · exact inv.most r old
        · cases List.mem_singleton.mp new
          exact ended.most
      · rw [taken, grown, List.length_append, UInt64.ofNat_add, ← processed]
        simp [uncounted, moved, Nat.min_eq_left bound]
      · rw [lost, List.flatMap_append, List.length_append, UInt64.ofNat_add, ← lost, ← dropped]
        simp [uncounted, moved]
      · simp [batches, unreturned, at_]

theorem countPush_dropped {r : Receiver} {pushed : Nat} (bound : pushed ≤ batch.items.length) :
    (r.countPush batch (UInt64.ofNat pushed)).dropped =
      r.dropped + UInt64.ofNat (batch.items.length - pushed) := by
  have all := batch.fits
  have fewer := UInt64.ofNat_lt_iff_lt (Nat.lt_of_le_of_lt bound all) all
  have left : batch.n - UInt64.ofNat pushed = UInt64.ofNat (batch.items.length - pushed) :=
    (UInt64.ofNat_sub bound).symm
  simp only [Receiver.countPush, left]
  split_ifs with less
  · rfl
  · have none : batch.items.length - pushed = 0 :=
      Nat.sub_eq_zero_of_le (Nat.le_of_not_lt (mt fewer.mpr less))
    rw [none]
    exact (UInt64.add_zero _).symm

theorem inv_count (inv : p.Inv n book) (stepped : p.count = some p') :
    p'.Inv n book ∧ p'.batches = p.batches := by
  unfold count at stepped
  split at stepped
  case h_2 => cases stepped
  case h_1 batch pushed at_ =>
    cases stepped
    have stage := inv.stage
    have processed := inv.processed
    have dropped := inv.dropped
    rw [at_] at stage
    simp only [uncounted, at_] at processed dropped
    obtain ⟨idle, bound⟩ := stage
    refine ⟨⟨inv.machine, idle, inv.bufs, inv.accepted, inv.most, ?_, ?_, inv.popped, inv.folded,
      inv.free⟩, ?_⟩
    · simp only [uncounted, Receiver.countPush]
      rw [processed]
      exact UInt64.add_zero _
    · simp only [uncounted]
      rw [countPush_dropped bound]
      exact (UInt64.add_zero _).trans dropped
    · simp [batches, unreturned, at_]

theorem inv_pop (inv : p.Inv n book) {machine : Machine Event} (ready : p.inHand = none)
    (stepped : p.machine.step .pop = some machine) :
    (p.moved machine).Inv n book ∧ (p.moved machine).batches = p.batches := by
  have machineInv := Machine.inv_step inv.machine stepped
  simp only [Machine.step] at stepped
  split at stepped
  case h_2 => cases stepped
  case h_1 =>
    cases stepped
    exact ⟨⟨machineInv, inv.stage, inv.bufs, inv.accepted, inv.most, inv.processed,
      inv.dropped, inv.popped, inv.folded, fun some => absurd ready some⟩, rfl⟩

theorem AtStage.congr {stage : ReceiveStage} (at_ : AtStage m stage)
    (producer : m'.producer = m.producer)
    (pending : m'.pending = m.pending) : AtStage m' stage := by
  cases stage <;> simpa only [AtStage, producer, pending] using at_

theorem inv_consume (inv : p.Inv n book) (stepped : p.consume = some p') :
    p'.Inv n book ∧ p'.batches = p.batches := by
  obtain ⟨machine, consumed, rfl⟩ := Option.map_eq_some_iff.mp stepped
  have machineInv := Machine.inv_consume inv.machine consumed
  obtain ⟨producer, pending, accepted, popped, free⟩ := consume_frame consumed
  have stage := inv.stage.congr producer pending
  have same := (congrArg (List.map Prod.fst) accepted).trans inv.accepted
  have ready : p.inHand = none := by
    by_contra some
    have idle := inv.free some
    simp only [Machine.step, Machine.consume, idle] at consumed
    cases consumed
  have next : (match p.machine.consumer with
      | .storeHead _ ev => { p.moved machine with inHand := some ev }
      | _ => p.moved machine) = { p.moved machine with inHand := (handed p.machine).head? } := by
    cases at_ : p.machine.consumer <;> simp [handed, at_, moved, ready]
  have one : handed p.machine = (handed p.machine).head?.toList := by
    unfold handed
    split <;> rfl
  rw [next]
  refine ⟨⟨machineInv, stage, inv.bufs, same, inv.most, inv.processed, inv.dropped, ?_,
    inv.folded, ?_⟩, rfl⟩
  · show machine.popped = p.applied ++ _
    rw [popped, inv.popped, ready, ← one]
    simp
  · intro some
    exact free fun empty => some (congrArg List.head? empty)

theorem inv_apply (inv : p.Inv n book) (stepped : p.apply = some p') :
    p'.Inv n book ∧ p'.batches = p.batches := by
  obtain ⟨ev, held, rfl⟩ := Option.map_eq_some_iff.mp stepped
  have popped := inv.popped
  rw [held] at popped
  refine ⟨⟨inv.machine, inv.stage, inv.bufs, inv.accepted, inv.most, inv.processed,
    inv.dropped, ?_, ?_, fun some => absurd rfl some⟩, rfl⟩
  · simpa using popped
  · simp [inv.folded]

/-! ### Runs -/

theorem inv_step {a : PipelineStep b} (inv : p.Inv n book) (own : 1 < b → n = b.toNat)
    (stepped : p.step toDouble a = some p') : p'.Inv n book ∧
      p'.batches = p.batches ++
        ((receivedGroups [a]).map (Group.events toDouble)).filter (· ≠ []) := by
  cases a with
  | receive g => exact inv_receive inv own stepped
  | push =>
    obtain ⟨inv', same⟩ := inv_push inv stepped
    exact ⟨inv', same.trans (List.append_nil _).symm⟩
  | count =>
    obtain ⟨inv', same⟩ := inv_count inv stepped
    exact ⟨inv', same.trans (List.append_nil _).symm⟩
  | pop =>
    simp only [step] at stepped
    split_ifs at stepped with ready
    obtain ⟨machine, popped, rfl⟩ := Option.map_eq_some_iff.mp stepped
    obtain ⟨inv', same⟩ := inv_pop inv ready popped
    exact ⟨inv', same.trans (List.append_nil _).symm⟩
  | consume =>
    obtain ⟨inv', same⟩ := inv_consume inv stepped
    exact ⟨inv', same.trans (List.append_nil _).symm⟩
  | apply =>
    obtain ⟨inv', same⟩ := inv_apply inv stepped
    exact ⟨inv', same.trans (List.append_nil _).symm⟩

theorem inv_run (steps : List (PipelineStep b)) (inv : p.Inv n book) (own : 1 < b → n = b.toNat)
    (ran : run (step toDouble) p steps = some p') : p'.Inv n book ∧
      p'.batches = p.batches ++
        ((receivedGroups steps).map (Group.events toDouble)).filter (· ≠ []) := by
  induction steps generalizing p with
  | nil =>
    cases ran
    exact ⟨inv, (List.append_nil _).symm⟩
  | cons a steps ih =>
    obtain ⟨mid, stepped, rest⟩ := run_cons_eq_some.mp ran
    obtain ⟨inv', first⟩ := inv_step inv own stepped
    obtain ⟨inv'', more⟩ := ih inv' rest
    have both : receivedGroups (a :: steps) = receivedGroups [a] ++ receivedGroups steps :=
      @List.filterMap_append _ _ [a] steps _
    refine ⟨inv'', ?_⟩
    rw [more, first, both, List.map_append, List.filter_append, List.append_assoc]

theorem inv_start {q : SpscQueue Event} (holds : q.Represents 0 [] []) :
    (start q b book).Inv (if 1 < b then b.toNat else 0) book := by
  refine ⟨Machine.inv_start holds, rfl, ?_, rfl, List.forall_mem_nil _, rfl, rfl, rfl, rfl,
    fun some => absurd rfl some⟩
  simp only [start, Receiver.start]
  split <;> simp

/-- Each push has taken its events or left them. -/
theorem length_taken_lost (pushes : List PushRecord) :
    (pushes.flatMap PushRecord.taken).length +
      (pushes.flatMap fun r => r.items.drop r.pushed).length =
      (pushes.flatMap PushRecord.items).length := by
  induction pushes with
  | nil => rfl
  | cons r pushes ih =>
    simp only [List.flatMap_cons, List.length_append, PushRecord.taken, List.length_take,
      List.length_drop] at ih ⊢
    omega

/-- The account of a run that has received groups with the events `received`.  The events applied,
the one in hand and the content of the queue are those that the pushes took, in order.  A push takes
the events of its batch from the first on, as many as there were free slots.  Whenever the loop is
back at `recvmmsg`, there has been a push for each group with an event, and the counters say how
many events were taken and how many were left. -/
structure Accounted (book : OrderBook) (received : List (List Event)) (p : Pipeline) : Prop where
  order : p.applied ++ p.inHand.toList ++ p.machine.queue.content =
    p.pushes.flatMap PushRecord.taken
  folded : p.book = p.applied.foldl OrderBook.applyEvent book
  losses : ∀ r ∈ p.pushes, r.pushed = min r.items.length r.freeSlots
  batches : p.stage = .receiving → p.pushes.map PushRecord.items = received.filter (· ≠ [])
  processed : p.stage = .receiving →
    p.receiver.processed = UInt64.ofNat (p.pushes.flatMap PushRecord.taken).length
  sum : p.stage = .receiving →
    p.receiver.processed + p.receiver.dropped = UInt64.ofNat received.flatten.length

theorem Inv.accounted (inv : p.Inv n book) {received : List (List Event)}
    (batches : p.batches = received.filter (· ≠ [])) : p.Accounted book received := by
  have order : p.applied ++ p.inHand.toList ++ p.machine.queue.content = p.taken := by
    rw [inv.machine.holds.content_eq, ← inv.popped, ← inv.accepted]
    calc p.machine.popped ++ p.machine.unread.map Prod.fst
        = (p.machine.accepted.take p.machine.popped.length).map Prod.fst ++
            (p.machine.accepted.drop p.machine.popped.length).map Prod.fst := by
          rw [inv.machine.order]
          rfl
      _ = p.machine.accepted.map Prod.fst := by rw [← List.map_append, List.take_append_drop]
  have settled : p.stage = .receiving → p.pushes.map PushRecord.items = received.filter (· ≠ []) ∧
      p.receiver.processed = UInt64.ofNat p.taken.length ∧
      p.receiver.dropped = UInt64.ofNat p.lost.length := by
    intro at_
    have processed := inv.processed
    have dropped := inv.dropped
    simp only [Pipeline.batches, unreturned, uncounted, at_, List.append_nil]
      at batches processed dropped
    exact ⟨batches, (UInt64.add_zero _).symm.trans processed,
      (UInt64.add_zero _).symm.trans dropped⟩
  refine ⟨order, inv.folded, inv.most, fun at_ => (settled at_).1, fun at_ => (settled at_).2.1, ?_⟩
  intro at_
  obtain ⟨batches, processed, dropped⟩ := settled at_
  have total : p.taken.length + p.lost.length = received.flatten.length := by
    rw [← List.flatten_filter_ne_nil, ← batches, ← List.flatMap_def]
    exact length_taken_lost p.pushes
  rw [processed, dropped, ← UInt64.ofNat_add, total]

end Pipeline

open Pipeline

/-- Every run on a new queue of any capacity up to 2^63 adds up, for every interleaving of the
passes with the consumer. -/
theorem pipeline_accounts (toDouble : Bytes → Option Double) (fuel : Nat) (enough : 64 ≤ fuel)
    (requested : UInt64) (bound : requested.toNat ≤ 2 ^ 63) :
    ∃ q, SpscQueue.new Event fuel requested = some q ∧
      ∀ (b : UInt64) (book : OrderBook) (steps : List (PipelineStep b)) (p : Pipeline),
        run (step toDouble) (start q b book) steps = some p →
        p.Accounted book ((receivedGroups steps).map (Group.events toDouble)) := by
  obtain ⟨q, built, -, holds⟩ := SpscQueue.new_represents (T := Event) enough bound
  refine ⟨q, built, fun b book steps p ran => ?_⟩
  obtain ⟨inv, batches⟩ := inv_run steps (inv_start holds) (fun batched => if_pos batched) ran
  exact inv.accounted batches

/-- Two quotes for a queue with a single free slot.  The consumer pops and applies the first before
the push is counted. -/
def overloaded : List (PipelineStep 2) :=
  (passes (groupOf firstQuote secondQuote)).map .receive ++
    [.push, .push, .push, .pop, .consume, .consume, .consume, .apply, .count]

theorem pipeline_accounts_overloaded :
    ∃ q p, SpscQueue.new Event 64 2 = some q ∧
      run (step stod) (start q 2 .empty) overloaded = some p ∧
      p.Accounted .empty ((receivedGroups overloaded).map (Group.events stod)) ∧
      p.applied.length = 1 ∧ p.receiver.dropped = 1 := by
  obtain ⟨q, built, accounts⟩ := pipeline_accounts stod 64 (le_refl 64) 2 (by decide)
  have runs : ∀ q ∈ SpscQueue.new Event 64 2,
      (run (step stod) (start q 2 .empty) overloaded).map
          (fun p => (p.applied.length, p.receiver.dropped)) = some (1, 1) := by
    decide +kernel
  obtain ⟨p, ran, counts⟩ := Option.map_eq_some_iff.mp (runs q built)
  obtain ⟨applied, dropped⟩ := Prod.mk.inj counts
  exact ⟨q, p, built, ran, accounts 2 .empty overloaded p ran, applied, dropped⟩

end EtradePipeline
