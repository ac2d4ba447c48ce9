import EtradePipeline.Book.OrderBook
import EtradePipeline.Kit.Transition
import EtradePipeline.Queue.Fifo
import EtradePipeline.Receiver.EventQueue
import EtradePipeline.Receiver.Paths

/-! The shutdown of the feed.  The receiver's thread and the thread of `orderbook_consumer` take
their steps in any order, and the stop flag is set from outside at any moment.  The consumer's loop
tests the stop flag at its head, so a set flag ends it with whatever the queue still holds. -/

namespace EtradePipeline

open Kit.Transition
open SpscQueue (Refines pushBulk_appends pop_takes)

/-- Where the receiver is: the operation that comes next. -/
inductive ReceiverThread where
  | testStop
  | receive
  | count (pushed dropped : UInt64)
  | notifyShutdown
  | storeStop
  | returned
  deriving DecidableEq

inductive ConsumerThread where
  | testStop
  | pop
  | apply (ev : Event)
  | testShutdown
  | testEmpty
  | returned
  deriving DecidableEq

/-- What the two threads share, where each is, and the record of the run: the events whose push was
accepted and the events that were applied, in order. -/
structure Feed where
  queue : SpscQueue Event
  stop : Bool
  book : OrderBook
  processed : UInt64
  dropped : UInt64
  receiver : ReceiverThread
  consumer : ConsumerThread
  accepted : List Event
  applied : List Event

/-- A step: the stop flag set from outside, the push of the events that the receiver has parsed from
what it received, none on a timeout, or the next step of a thread. -/
inductive FeedStep where
  | requestStop
  | push (events : Batch Event)
  | receiver
  | consumer

namespace Feed

/-- The threads at their start, with the book that the consumer works on. -/
def start (queue : SpscQueue Event) (book : OrderBook) : Feed :=
  ⟨queue, false, book, 0, 0, .testStop, .testStop, [], []⟩

/-- The push of a pass of `run_udp_receiver`. -/
def push (f : Feed) (events : Batch Event) : Option Feed :=
  match f.receiver with
  | .receive =>
    if events.items.isEmpty then some { f with receiver := .testStop }
    else
      let (pushed, queue) := f.queue.pushBulk events
      some { f with
        queue
        receiver := .count pushed (events.n - pushed)
        accepted := f.accepted ++ events.items.take pushed.toNat }
  | _ => none

/-- The other steps of `run_udp_receiver`. -/
def receiverStep (f : Feed) : Option Feed :=
  match f.receiver with
  | .testStop => some { f with receiver := if f.stop then .notifyShutdown else .receive }
  | .receive => none
  | .count pushed dropped => some { f with
      processed := f.processed + pushed
      dropped := f.dropped + dropped
      receiver := .testStop }
  | .notifyShutdown => some { f with queue := f.queue.notifyShutdown, receiver := .storeStop }
  | .storeStop => some { f with stop := true, receiver := .returned }
  | .returned => none

/-- A step of `orderbook_consumer`. -/
def consumerStep (f : Feed) : Option Feed :=
  match f.consumer with
  | .testStop => some { f with consumer := if f.stop then .returned else .pop }
  | .pop =>
    match f.queue.pop with
    | (some ev, queue) => some { f with queue, consumer := .apply ev }
    | (none, queue) => some { f with queue, consumer := .testShutdown }
  | .apply ev => some { f with
      book := f.book.applyEvent ev
      applied := f.applied ++ [ev]
      consumer := .pop }
  | .testShutdown =>
    some { f with consumer := if f.queue.isShutdown then .testEmpty else .testStop }
  | .testEmpty => some { f with consumer := if f.queue.empty then .returned else .testStop }
  | .returned => none

/-- The feed after a step, when it is enabled. -/
def step (f : Feed) : FeedStep → Option Feed
  | .requestStop => some { f with stop := true }
  | .push events => f.push events
  | .receiver => f.receiverStep
  | .consumer => f.consumerStep

theorem pushBulk_le (q : SpscQueue Event) (events : Batch Event) :
    (q.pushBulk events).1 ≤ events.n := by
  simp only [SpscQueue.pushBulk, SpscQueue.toPush]
  split_ifs with none full less
  · exact UInt64.zero_le
  · exact UInt64.zero_le
  · exact UInt64.le_refl _
  · exact UInt64.le_of_lt (UInt64.not_le.mp less)

/-- The push and the count are what a pass of the receive loop does with its events. -/
theorem push_count (f : Feed) (r : Receiver) (events : Batch Event) (at_ : f.receiver = .receive)
    (more : events.items ≠ []) (queue : f.queue = r.queue) (processed : f.processed = r.processed)
    (dropped : f.dropped = r.dropped) (accepted : f.accepted = r.accepted) :
    (f.push events).bind receiverStep = some { f with
      queue := (r.pushEvents events).queue
      processed := (r.pushEvents events).processed
      dropped := (r.pushEvents events).dropped
      accepted := (r.pushEvents events).accepted
      receiver := .testStop } := by
  have drop : (if (r.queue.pushBulk events).1 < events.n then
      r.dropped + (events.n - (r.queue.pushBulk events).1) else r.dropped) =
      r.dropped + (events.n - (r.queue.pushBulk events).1) := by
    split_ifs with less
    · rfl
    · have same := UInt64.le_antisymm (pushBulk_le r.queue events) (UInt64.not_lt.mp less)
      rw [same, UInt64.sub_self, UInt64.add_zero]
  simp [push, receiverStep, Receiver.pushEvents, at_, more, queue, processed, dropped,
    accepted, drop]

/-- The events that are pushed but not yet counted. -/
def uncounted (f : Feed) : UInt64 :=
  match f.receiver with
  | .count pushed _ => pushed
  | _ => 0

/-- The event that the consumer has popped but not yet applied. -/
def inHand (f : Feed) : List Event :=
  match f.consumer with
  | .apply ev => [ev]
  | _ => []

/-- Once the consumer has returned, it has applied every accepted event, in push order, and the
accepted events are those counted as processed or about to be. -/
def Drains (book : OrderBook) (f : Feed) : Prop :=
  f.consumer = .returned →
    f.applied = f.accepted ∧ f.book = f.accepted.foldl OrderBook.applyEvent book ∧
      f.processed + f.uncounted = UInt64.ofNat f.accepted.length

/-- The consumer finds the stop flag set only when the queue is empty, and once it has returned the
receiver has nothing more to push. -/
def LeavesNothing (f : Feed) : FeedStep → Prop
  | .consumer => f.consumer = .testStop → f.stop = true → f.queue.empty = true
  | .push events => f.consumer = .returned → f.receiver = .receive → events.items = []
  | .requestStop | .receiver => True

/-- The consumer does not find the stop flag set. -/
def StaysInLoop (f : Feed) : FeedStep → Prop
  | .consumer => f.consumer = .testStop → f.stop = false
  | .requestStop | .push _ | .receiver => True

/-- What a step can do, one constructor for each outcome. -/
inductive Steps (f : Feed) : FeedStep → Feed → Prop
  | requested : Steps f .requestStop { f with stop := true }
  | timedOut (events : Batch Event) (at_ : f.receiver = .receive) (none : events.items = []) :
      Steps f (.push events) { f with receiver := .testStop }
  | pushed (events : Batch Event) (at_ : f.receiver = .receive) (more : events.items ≠ []) :
      Steps f (.push events) { f with
        queue := (f.queue.pushBulk events).2
        receiver := .count (f.queue.pushBulk events).1 (events.n - (f.queue.pushBulk events).1)
        accepted := f.accepted ++ events.items.take (f.queue.pushBulk events).1.toNat }
  | continued (at_ : f.receiver = .testStop) (clear : f.stop = false) :
      Steps f .receiver { f with receiver := .receive }
  | sawStop (at_ : f.receiver = .testStop) (set : f.stop = true) :
      Steps f .receiver { f with receiver := .notifyShutdown }
  | counted (pushed dropped : UInt64) (at_ : f.receiver = .count pushed dropped) :
      Steps f .receiver { f with
        processed := f.processed + pushed
        dropped := f.dropped + dropped
        receiver := .testStop }
  | notified (at_ : f.receiver = .notifyShutdown) :
      Steps f .receiver { f with queue := f.queue.notifyShutdown, receiver := .storeStop }
  | stopped (at_ : f.receiver = .storeStop) :
      Steps f .receiver { f with stop := true, receiver := .returned }
  | entered (at_ : f.consumer = .testStop) (clear : f.stop = false) :
      Steps f .consumer { f with consumer := .pop }
  | leftAtHead (at_ : f.consumer = .testStop) (set : f.stop = true) :
      Steps f .consumer { f with consumer := .returned }
  | popped (ev : Event) (at_ : f.consumer = .pop) (item : f.queue.pop.1 = some ev) :
      Steps f .consumer { f with queue := f.queue.pop.2, consumer := .apply ev }
  | foundNone (at_ : f.consumer = .pop) (item : f.queue.pop.1 = none) :
      Steps f .consumer { f with queue := f.queue.pop.2, consumer := .testShutdown }
  | applied (ev : Event) (at_ : f.consumer = .apply ev) :
      Steps f .consumer { f with
        book := f.book.applyEvent ev
        applied := f.applied ++ [ev]
        consumer := .pop }
  | sawShutdown (at_ : f.consumer = .testShutdown) (shut : f.queue.shutdown = true) :
      Steps f .consumer { f with consumer := .testEmpty }
  | looped (at_ : f.consumer = .testShutdown ∨ f.consumer = .testEmpty) :
      Steps f .consumer { f with consumer := .testStop }
  | leftAtBottom (at_ : f.consumer = .testEmpty) (none : f.queue.empty = true) :
      Steps f .consumer { f with consumer := .returned }

variable {f f' : Feed} {a : FeedStep}

theorem steps_of_push {events : Batch Event} (stepped : f.push events = some f') :
    f.Steps (.push events) f' := by
  unfold push at stepped
  split at stepped
  case h_2 => cases stepped
  case h_1 at_ =>
    split_ifs at stepped with none
    · cases stepped
      exact .timedOut events at_ (List.isEmpty_iff.mp none)
    · rcases pushing : f.queue.pushBulk events with ⟨pushed, queue⟩
      have outcome := Steps.pushed events at_ (mt List.isEmpty_iff.mpr none)
      rw [pushing] at stepped outcome
      cases stepped
      exact outcome

theorem steps_of_receiver (stepped : f.receiverStep = some f') : f.Steps .receiver f' := by
  unfold receiverStep at stepped
  cases at_ : f.receiver with
  | testStop =>
    rw [at_] at stepped
    cases stepped
    split_ifs with set
    · exact .sawStop at_ set
    · exact .continued at_ (Bool.eq_false_iff.mpr set)
  | receive | returned =>
    rw [at_] at stepped
    cases stepped
  | count pushed dropped =>
    rw [at_] at stepped
    cases stepped
    exact .counted pushed dropped at_
  | notifyShutdown =>
    rw [at_] at stepped
    cases stepped
    exact .notified at_
  | storeStop =>
    rw [at_] at stepped
    cases stepped
    exact .stopped at_

theorem steps_of_consumer (stepped : f.consumerStep = some f') : f.Steps .consumer f' := by
  unfold consumerStep at stepped
  cases at_ : f.consumer with
  | testStop =>
    rw [at_] at stepped
    cases stepped
    split_ifs with set
    · exact .leftAtHead at_ set
    · exact .entered at_ (Bool.eq_false_iff.mpr set)
  | pop =>
    rw [at_] at stepped
    rcases popping : f.queue.pop with ⟨_ | ev, queue⟩
    · have outcome := Steps.foundNone at_ (congrArg Prod.fst popping)
      rw [popping] at stepped outcome
      cases stepped
      exact outcome
    · have outcome := Steps.popped ev at_ (congrArg Prod.fst popping)
      rw [popping] at stepped outcome
      cases stepped
      exact outcome
  | apply ev =>
    rw [at_] at stepped
    cases stepped
    exact .applied ev at_
  | testShutdown =>
    rw [at_] at stepped
    cases stepped
    split_ifs with shut
    · exact .sawShutdown at_ shut
    · exact .looped (.inl at_)
  | testEmpty =>
    rw [at_] at stepped
    cases stepped
    split_ifs with none
    · exact .leftAtBottom at_ none
    · exact .looped (.inr at_)
  | returned =>
    rw [at_] at stepped
    cases stepped

/-- The inversion of a step. -/
theorem steps_of_step (stepped : f.step a = some f') : f.Steps a f' := by
  cases a with
  | requestStop =>
    cases stepped
    exact .requested
  | push events => exact steps_of_push stepped
  | receiver => exact steps_of_receiver stepped
  | consumer => exact steps_of_consumer stepped

/-! ### The invariant -/

/-- What every run keeps: the accepted events are those applied, the one in hand and those in the
queue, in order, the book is the fold over those applied, and a queue that is shut down is pushed to
no more. -/
structure Inv (book : OrderBook) (N : Nat) (f : Feed) : Prop where
  accounts : ∃ items, Refines N f.queue items ∧ f.accepted = f.applied ++ f.inHand ++ items
  folded : f.book = f.applied.foldl OrderBook.applyEvent book
  counted : f.processed + f.uncounted = UInt64.ofNat f.accepted.length
  notified : f.queue.shutdown = true → f.receiver = .storeStop ∨ f.receiver = .returned
  leaving : f.consumer = .testEmpty → f.queue.shutdown = true

variable {book : OrderBook} {N : Nat}

theorem pushBulk_shutdown (q : SpscQueue Event) (events : Batch Event) :
    (q.pushBulk events).2.shutdown = q.shutdown := by
  simp only [SpscQueue.pushBulk]
  split_ifs <;> rfl

theorem pop_shutdown (q : SpscQueue Event) : q.pop.2.shutdown = q.shutdown := by
  simp only [SpscQueue.pop]
  split_ifs <;> rfl

/-- A receiver that is still to push has not shut the queue down. -/
theorem Inv.open_ (inv : f.Inv book N) {stage : ReceiverThread} (at_ : f.receiver = stage)
    (early : stage ≠ .storeStop ∧ stage ≠ .returned) : f.queue.shutdown ≠ true := by
  intro shut
  rcases inv.notified shut with there | there
  · exact early.1 (at_.symm.trans there)
  · exact early.2 (at_.symm.trans there)

/-- A step that changes only where the consumer is, with no event in hand before or after. -/
theorem Inv.moveConsumer (inv : f.Inv book N) {stage : ConsumerThread} (free : f.inHand = [])
    (free' : inHand { f with consumer := stage } = [])
    (leaving : stage = .testEmpty → f.queue.shutdown = true) :
    Inv book N { f with consumer := stage } := by
  obtain ⟨items, refines, same⟩ := inv.accounts
  rw [free] at same
  exact ⟨⟨items, refines, by rw [free']; exact same⟩, inv.folded, inv.counted,
    inv.notified, leaving⟩

/-- Every step keeps the invariant. -/
theorem inv_step (inv : f.Inv book N) (stepped : f.step a = some f') : f'.Inv book N := by
  obtain ⟨items, ⟨slots, first, holds⟩, same⟩ := inv.accounts
  have counted := inv.counted
  cases steps_of_step stepped with
  | requested => exact ⟨inv.accounts, inv.folded, counted, inv.notified, inv.leaving⟩
  | timedOut events at_ | continued at_ | sawStop at_ =>
    rw [uncounted, at_] at counted
    exact ⟨inv.accounts, inv.folded, counted,
      fun shut => absurd shut (inv.open_ at_ (by decide)), inv.leaving⟩
  | pushed events at_ more =>
    obtain ⟨count, slots', holds'⟩ := pushBulk_appends holds events
    have taken : (events.items.take (f.queue.pushBulk events).1.toNat).length =
        (f.queue.pushBulk events).1.toNat := by
      rw [List.length_take, count]
      omega
    rw [← count] at holds'
    rw [uncounted, at_] at counted
    refine ⟨⟨_, ⟨(congrArg _ slots').trans slots, first, holds'⟩, ?_⟩, inv.folded, ?_, ?_, ?_⟩
    · show f.accepted ++ _ = f.applied ++ f.inHand ++ _
      rw [same, List.append_assoc]
    · show f.processed + (f.queue.pushBulk events).1 = UInt64.ofNat (f.accepted ++ _).length
      rw [List.length_append, taken, UInt64.ofNat_add, ← counted, UInt64.ofNat_toNat,
        UInt64.add_zero]
    · rw [pushBulk_shutdown]
      exact fun shut => absurd shut (inv.open_ at_ (by decide))
    · rw [pushBulk_shutdown]
      exact inv.leaving
  | counted pushed dropped at_ =>
    rw [uncounted, at_] at counted
    refine ⟨inv.accounts, inv.folded, ?_,
      fun shut => absurd shut (inv.open_ at_ (by simp)), inv.leaving⟩
    show f.processed + pushed + 0 = _
    rw [counted, UInt64.add_zero]
  | notified at_ =>
    rw [uncounted, at_] at counted
    refine ⟨⟨items, ⟨slots, first, ?_⟩, same⟩, inv.folded, counted, fun _ => .inl rfl, fun _ => rfl⟩
    exact ⟨holds.power, holds.slots, holds.room, holds.head, holds.tail, holds.holds⟩
  | stopped at_ =>
    rw [uncounted, at_] at counted
    exact ⟨inv.accounts, inv.folded, counted, fun _ => .inr rfl, inv.leaving⟩
  | entered at_ | leftAtHead at_ | leftAtBottom at_ =>
    exact inv.moveConsumer (by rw [inHand, at_]) rfl nofun
  | sawShutdown at_ shut => exact inv.moveConsumer (by rw [inHand, at_]) rfl fun _ => shut
  | looped at_ =>
    refine inv.moveConsumer ?_ rfl nofun
    rcases at_ with at_ | at_ <;> rw [inHand, at_]
  | popped ev at_ item =>
    obtain ⟨next, slots', holds'⟩ := pop_takes holds
    obtain ⟨rest, rfl⟩ := List.head?_eq_some_iff.mp (next.symm.trans item)
    refine ⟨⟨rest, ⟨(congrArg _ slots').trans slots, holds'⟩, ?_⟩, inv.folded, counted, ?_, nofun⟩
    · show f.accepted = f.applied ++ [ev] ++ rest
      rw [same, inHand, at_, List.append_nil, List.append_assoc, List.singleton_append]
    · rw [pop_shutdown]
      exact inv.notified
  | foundNone at_ item =>
    obtain ⟨next, slots', holds'⟩ := pop_takes holds
    obtain rfl := List.head?_eq_none_iff.mp (next.symm.trans item)
    refine ⟨⟨[], ⟨(congrArg _ slots').trans slots, holds'⟩, ?_⟩, inv.folded, counted, ?_, nofun⟩
    · show f.accepted = f.applied ++ [] ++ []
      rw [same, inHand, at_]
    · rw [pop_shutdown]
      exact inv.notified
  | applied ev at_ =>
    refine ⟨⟨items, ⟨slots, first, holds⟩, ?_⟩, ?_, counted, inv.notified, nofun⟩
    · show f.accepted = f.applied ++ [ev] ++ [] ++ items
      rw [same, inHand, at_, List.append_nil]
    · show f.book.applyEvent ev = (f.applied ++ [ev]).foldl OrderBook.applyEvent book
      rw [List.foldl_append, ← inv.folded]
      rfl

/-- With no event in hand, an empty queue means that what was accepted has been applied. -/
theorem Inv.empty_iff (inv : f.Inv book N) (free : f.inHand = []) :
    f.queue.empty = true ↔ f.applied = f.accepted := by
  obtain ⟨items, ⟨-, first, holds⟩, same⟩ := inv.accounts
  rw [SpscQueue.empty, decide_eq_true_iff, holds.empty_iff, same, free, List.append_nil]
  exact List.self_eq_append_right.symm

theorem Inv.drains (inv : f.Inv book N) (all : f.consumer = .returned → f.applied = f.accepted) :
    f.Drains book := by
  intro returned
  refine ⟨all returned, ?_, inv.counted⟩
  rw [inv.folded, all returned]

theorem Inv.push_grows (inv : f.Inv book N) (room : 2 ≤ N) {events : Batch Event}
    (more : events.items ≠ []) (free : f.inHand = []) (all : f.applied = f.accepted) :
    f.applied ≠ f.accepted ++ events.items.take (f.queue.pushBulk events).1.toNat := by
  obtain ⟨items, ⟨slots, first, holds⟩, same⟩ := inv.accounts
  rw [← all, free, List.append_nil] at same
  obtain rfl := List.self_eq_append_right.mp same
  obtain ⟨count, -⟩ := pushBulk_appends holds events
  rw [List.length_nil, slots] at count
  have positive := List.length_pos_iff.mpr more
  rw [all]
  intro same
  have := congrArg List.length (List.self_eq_append_right.mp same)
  rw [List.length_take, count, List.length_nil] at this
  omega

/-- The step: one that leaves nothing behind keeps a drained feed drained. -/
theorem drains_step (inv : f.Inv book N) (drains : f.Drains book) (leaves : f.LeavesNothing a)
    (stepped : f.step a = some f') : f'.Drains book := by
  apply (inv_step inv stepped).drains
  cases steps_of_step stepped with
  | requested | timedOut | continued | sawStop | counted | notified | stopped =>
    exact fun returned => (drains returned).1
  | pushed events at_ more => exact fun returned => absurd (leaves returned at_) more
  | leftAtHead at_ set => exact fun _ => (inv.empty_iff (by rw [inHand, at_])).mp (leaves at_ set)
  | leftAtBottom at_ none => exact fun _ => (inv.empty_iff (by rw [inHand, at_])).mp none
  | entered | popped | foundNone | applied | sawShutdown | looped => exact nofun

/-- A step between two drained feeds leaves nothing behind. -/
theorem leavesNothing_of_drains (room : 2 ≤ N) (inv : f.Inv book N) (drains : f.Drains book)
    (next : ∀ f', f.step a = some f' → f'.Drains book) : f.LeavesNothing a := by
  cases a with
  | requestStop | receiver => trivial
  | push events =>
    intro returned receiving
    by_contra more
    have stepped : f.step (.push events) = some { f with
        queue := (f.queue.pushBulk events).2
        receiver := .count (f.queue.pushBulk events).1 (events.n - (f.queue.pushBulk events).1)
        accepted := f.accepted ++ events.items.take (f.queue.pushBulk events).1.toNat } := by
      simp [step, push, receiving, more]
    exact inv.push_grows room more (by rw [inHand, returned]) (drains returned).1
      (next _ stepped returned).1
  | consumer =>
    intro at_ set
    have stepped : f.step .consumer = some { f with consumer := .returned } := by
      simp [step, consumerStep, at_, set]
    exact (inv.empty_iff (by rw [inHand, at_])).mpr (next _ stepped rfl).1

/-- A consumer that does not leave at its loop head has returned, if at all, after the shutdown flag
was set. -/
theorem shutdown_step (inv : f.Inv book N)
    (before : f.consumer = .returned → f.queue.shutdown = true) (stays : f.StaysInLoop a)
    (stepped : f.step a = some f') : f'.consumer = .returned → f'.queue.shutdown = true := by
  cases steps_of_step stepped with
  | requested | timedOut | continued | sawStop | counted | stopped => exact before
  | pushed events at_ more => exact fun returned => (pushBulk_shutdown _ _).trans (before returned)
  | notified at_ => exact fun _ => rfl
  | leftAtHead at_ set => exact absurd ((stays at_).symm.trans set) (by decide)
  | leftAtBottom at_ none => exact fun _ => inv.leaving at_
  | entered | popped | foundNone | applied | sawShutdown | looped => exact nofun

/-- After the shutdown flag is set nothing is pushed any more. -/
theorem Inv.leavesNothing (inv : f.Inv book N)
    (shut : f.consumer = .returned → f.queue.shutdown = true) (stays : f.StaysInLoop a) :
    f.LeavesNothing a := by
  cases a with
  | requestStop | receiver => trivial
  | push events => exact fun returned at_ => absurd (shut returned) (inv.open_ at_ (by decide))
  | consumer => exact fun at_ set => absurd ((stays at_).symm.trans set) (by decide)

theorem inv_start {queue : SpscQueue Event} (holds : queue.Represents 0 [] [])
    (open_ : queue.shutdown = false) : (start queue book).Inv book queue.capacity.toNat :=
  ⟨⟨[], ⟨rfl, 0, holds⟩, rfl⟩, rfl, rfl, fun shut => by simp [start, open_] at shut, nofun⟩

/-- The invariant at the start of a run. -/
theorem new_inv (book : OrderBook) :
    ∃ q, SpscQueue.new Event 64 queueCapacity = some q ∧ 2 ≤ q.capacity.toNat ∧
      (start q book).Inv book q.capacity.toNat := by
  obtain ⟨q, built, room, holds, open_⟩ := new_eventQueue
  exact ⟨q, built, room, inv_start holds open_⟩

end Feed

open Feed

/-- In every run, whatever the order of the receiver, the consumer and the stop request, the feed is
drained in every state exactly when each step leaves nothing behind.  That is the case where the
consumer leaves its loop only at the bottom, where it tests the shutdown flag and the empty
queue. -/
theorem shutdown_drains_iff (book : OrderBook) (steps : List FeedStep) :
    ∃ q, SpscQueue.new Event 64 queueCapacity = some q ∧
      (EveryState step (Drains book) (start q book) steps ↔
        EveryStep step LeavesNothing (start q book) steps) ∧
      (EveryStep step StaysInLoop (start q book) steps →
        EveryStep step LeavesNothing (start q book) steps) := by
  obtain ⟨q, built, room, inv⟩ := new_inv book
  refine ⟨q, built, ⟨fun all => ?_, fun each => ?_⟩, fun each => ?_⟩
  · exact everyStep_of_everyState (I := Inv book q.capacity.toNat)
      (fun f a f' inv stepped => inv_step inv stepped)
      (fun f a inv drains next => leavesNothing_of_drains room inv drains next) inv all
  · refine everyState_of_everyStep (I := fun f => f.Inv book q.capacity.toNat ∧ f.Drains book)
      ?_ (fun f kept => kept.2) ⟨inv, nofun⟩ each
    rintro f a f' ⟨inv, drains⟩ leaves stepped
    exact ⟨inv_step inv stepped, drains_step inv drains leaves stepped⟩
  · refine each.weaken (I := fun f => f.Inv book q.capacity.toNat ∧
      (f.consumer = .returned → f.queue.shutdown = true)) ?_ ?_ ⟨inv, nofun⟩
    · rintro f a f' ⟨inv, shut⟩ stays stepped
      exact ⟨inv_step inv stepped, shutdown_step inv shut stays stepped⟩
    · rintro f a ⟨inv, shut⟩ stays
      exact inv.leavesNothing shut stays

/-- One event of 100 at 173.42. -/
def lateEvent : Event :=
  { seq := 1, msgTsMs := 0, recvTsMs := 0, latencyMs := 0, symbol := setSymbol (bytes "AAPL"),
    price := .finite (8671 / 50), size := 100, src := setSrc (bytes "127.0.0.1:9000") }

/-- The receiver pushes an event, and the stop flag is set before the consumer's first test of
it. -/
def stopBeforeDrain : List FeedStep :=
  [.receiver, .push ⟨[lateEvent], by decide⟩, .requestStop, .consumer]

/-- The consumer returns without the event. -/
theorem event_left_behind :
    ∃ q, SpscQueue.new Event 64 queueCapacity = some q ∧
      (run step (start q .empty) stopBeforeDrain).map
        (fun f => (f.consumer, f.accepted, f.applied)) = some (.returned, [lateEvent], []) ∧
      ¬ EveryState step (Drains .empty) (start q .empty) stopBeforeDrain := by
  obtain ⟨q, built, -⟩ := new_inv .empty
  have final : ((SpscQueue.new Event 64 queueCapacity).bind fun q =>
      (run step (start q .empty) stopBeforeDrain).map
        fun f => (f.consumer, f.accepted, f.applied)) = some (.returned, [lateEvent], []) := by
    decide +kernel
  rw [built, Option.bind_some] at final
  refine ⟨q, built, final, fun all => ?_⟩
  obtain ⟨f, ran, values⟩ := Option.map_eq_some_iff.mp final
  simp only [Prod.mk.injEq] at values
  obtain ⟨returned, accepted, applied⟩ := values
  have drained := (all stopBeforeDrain (List.prefix_refl _) f ran returned).1
  rw [accepted, applied] at drained
  cases drained

end EtradePipeline
