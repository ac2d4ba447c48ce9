import EtradePipeline.Kit.FlatMap
import EtradePipeline.Kit.Transition
import EtradePipeline.Queue.Fifo
import EtradePipeline.Receiver.EventQueue
import EtradePipeline.Receiver.Paths
import Mathlib.Data.List.Forall2

/-! Where the two receive paths agree.  With room in the queue a pass adds the events of its
datagrams, so on both paths the run adds up to a concatenation over its passes.  The path of single
datagrams misses the second datagram of a pass. -/

namespace EtradePipeline

open Kit.Transition
open SpscQueue (Refines pushBulk_appends pop_takes toNat_freeSlots)

variable (toDouble : Bytes → Option Double)

/-- The datagrams that a pass of the `recvfrom` path takes. -/
def Poll.datagrams (p : Poll) : List Datagram := p.first.toList ++ p.second.toList

/-- The datagrams that a pass of the `recvmmsg` path takes. -/
def Group.datagrams {b : UInt64} (g : Group b) : List Datagram := g.arrivals.map Arrival.datagram

/-- The event that a pass of the `recvfrom` path pushes. -/
def Poll.events (p : Poll) : List Event :=
  match p.first, p.second with
  | some d, some other => (receiveEvent toDouble d.payload p.recvTsMs other.source).toList
  | _, _ => []

/-- The events that a pass of the `recvmmsg` path pushes. -/
def Group.events {b : UInt64} (g : Group b) : List Event :=
  g.arrivals.filterMap fun a =>
    receiveEvent toDouble a.datagram.payload a.recvTsMs a.datagram.source

/-- The datagrams that a pass of the `recvfrom` path parses. -/
def Poll.parsed (p : Poll) : List Datagram :=
  match p.first, p.second with
  | some d, some _ => [d]
  | _, _ => []

/-- The queue has room for the events of a pass. -/
def Receiver.NeverFull {Pass : Type} (events : Pass → List Event) (r : Receiver) :
    PathStep Pass → Prop
  | .consume => True
  | .receive pass => (events pass).length ≤ (r.queue.freeSlots r.queue.head r.queue.tail).toNat

instance {Pass : Type} (events : Pass → List Event) (r : Receiver) :
    ∀ step, Decidable (r.NeverFull events step)
  | .consume => inferInstanceAs (Decidable True)
  | .receive _ => inferInstanceAs (Decidable (_ ≤ _))

/-- An event without its receive timestamp and the latency computed from it. -/
def Event.untimed (ev : Event) : Event := { ev with recvTsMs := 0, latencyMs := 0 }

/-- Two record lines of events that are equal up to receive timestamps. -/
def SameRecord (l l' : Line) : Prop :=
  ∃ ev ev' : Event, l = recordLine ev ∧ l' = recordLine ev' ∧ ev.untimed = ev'.untimed

/-- The same events, record lines and counters. -/
structure Receiver.Agree (r r' : Receiver) : Prop where
  events : r.accepted.map Event.untimed = r'.accepted.map Event.untimed
  records : List.Forall₂ SameRecord r.lines r'.lines
  processed : r.processed = r'.processed
  dropped : r.dropped = r'.dropped

/-- The bytes parsed for a datagram are those of the datagram. -/
def Receiver.ParsesExactly (r : Receiver) : Prop := ∀ e ∈ r.parsed, e.2 = e.1.payload

/-- The parser accepts the datagram. -/
def Datagram.accepted (d : Datagram) : Bool := (parse toDouble d.payload).isOk

/-- A pass of the `recvfrom` path does the same as a pass for each datagram would.  It does not fail
at first and then get a datagram, it gets no datagram but the first that the parser accepts, and an
accepted one has the source of the second. -/
def Poll.Harmless (p : Poll) : Prop :=
  match p.first, p.second with
  | none, none => True
  | none, some _ => False
  | some d, none => d.accepted toDouble = false
  | some d, some other => other.accepted toDouble = false ∧
      (d.accepted toDouble = true → setSrc d.source.srcMerged = setSrc other.source.srcMerged)

variable {toDouble} {N m : Nat} {r r' r'' : Receiver} {more more' : List Event}
  {parses parses' : List Datagram}

namespace Receiver

/-! ### What a pass adds -/

/-- What steps add to the record of a run: accepted events, each with its line and counted as
processed, and datagrams parsed as they are. -/
structure Adds (r r' : Receiver) (more : List Event) (parses : List Datagram) : Prop where
  accepted : r'.accepted = r.accepted ++ more
  lines : r'.lines = r.lines ++ more.map recordLine
  processed : r'.processed = r.processed + UInt64.ofNat more.length
  dropped : r'.dropped = r.dropped
  parsed : r'.parsed = r.parsed ++ parses.map fun d => (d, d.payload)

theorem Adds.refl (r : Receiver) : r.Adds r [] [] := ⟨by simp, by simp, by simp, rfl, by simp⟩

theorem Adds.trans (first : r.Adds r' more parses) (second : r'.Adds r'' more' parses') :
    r.Adds r'' (more ++ more') (parses ++ parses') := by
  refine ⟨?_, ?_, ?_, second.dropped.trans first.dropped, ?_⟩
  · rw [second.accepted, first.accepted, List.append_assoc]
  · rw [second.lines, first.lines, List.map_append, List.append_assoc]
  · rw [second.processed, first.processed, List.length_append, UInt64.ofNat_add, UInt64.add_assoc]
  · rw [second.parsed, first.parsed, List.map_append, List.append_assoc]

/-- The queue is in order, and there are `m` batch buffers. -/
structure Ready (N m : Nat) (r : Receiver) : Prop where
  queue : ∃ items, Refines N r.queue items
  bufs : r.batchBufs.length = m

theorem pushBulk_all {q : SpscQueue Event} {items : List Event} (refines : Refines N q items)
    (events : Batch Event) (room : events.items.length ≤ (q.freeSlots q.head q.tail).toNat) :
    (q.pushBulk events).1 = events.n ∧ ∃ items, Refines N (q.pushBulk events).2 items := by
  obtain ⟨slots, first, holds⟩ := refines
  have less := holds.room
  simp only [List.length_nil, Nat.add_zero] at less
  rw [toNat_freeSlots holds.power less holds.head holds.tail] at room
  obtain ⟨count, slots', holds'⟩ := pushBulk_appends holds events
  rw [min_eq_left room] at count
  refine ⟨?_, _, (congrArg _ slots').trans slots, first, holds'⟩
  rw [← UInt64.toNat_inj, count]
  exact (UInt64.toNat_ofNat_of_lt' events.fits).symm

theorem record_pushEvent (ready : r.Ready N m) (ev : Event)
    (room : 1 ≤ (r.queue.freeSlots r.queue.head r.queue.tail).toNat) :
    ((r.record [ev]).pushEvent ev).Ready N m ∧ r.Adds ((r.record [ev]).pushEvent ev) [ev] [] := by
  obtain ⟨items, refines⟩ := ready.queue
  obtain ⟨count, refines'⟩ := pushBulk_all refines ⟨[ev], by simp⟩ room
  have one : Batch.n ⟨[ev], by simp⟩ = 1 := rfl
  rw [one] at count
  refine ⟨⟨refines', ready.bufs⟩, ?_, rfl, ?_, ?_, by simp [pushEvent, record]⟩
  all_goals
    simp only [pushEvent, record, count]
    rfl

theorem record_pushEvents (ready : r.Ready N m) (events : Batch Event)
    (room : events.items.length ≤ (r.queue.freeSlots r.queue.head r.queue.tail).toNat) :
    ((r.record events.items).pushEvents events).Ready N m ∧
      r.Adds ((r.record events.items).pushEvents events) events.items [] := by
  obtain ⟨items, refines⟩ := ready.queue
  obtain ⟨count, refines'⟩ := pushBulk_all refines events room
  unfold pushEvents
  split_ifs with none
  · have none := List.isEmpty_iff.mp none
    refine ⟨⟨ready.queue, ready.bufs⟩, ?_, rfl, ?_, rfl, by simp [record]⟩
    all_goals simp [record, none]
  · have all : events.n.toNat = events.items.length := UInt64.toNat_ofNat_of_lt' events.fits
    refine ⟨⟨refines', ready.bufs⟩, ?_, rfl, ?_, ?_, by simp [record]⟩
    · simp only [record, count, all, List.take_length]
    · simp only [record, count]
      rfl
    · simp only [record, count, UInt64.lt_irrefl, if_false]

/-- The step on the `recvfrom` path. -/
theorem poll_adds (ready : r.Ready N m) {p : Poll}
    (room : r.NeverFull (Poll.events toDouble) (.receive p))
    (stepped : r.poll toDouble p = some r') :
    r'.Ready N m ∧ r.Adds r' (p.events toDouble) p.parsed := by
  obtain ⟨first, second, recvTsMs⟩ := p
  unfold Receiver.poll at stepped
  cases first with
  | none =>
    cases second with
    | none =>
      cases stepped
      exact ⟨ready, .refl r⟩
    | some other => cases stepped
  | some d =>
    cases second with
    | none =>
      cases stepped
      exact ⟨⟨ready.queue, ready.bufs⟩, by simp [Poll.events], by simp [Poll.events],
        by simp [Poll.events], rfl, by simp [Poll.parsed]⟩
    | some other =>
      simp only [PacketBuf.view_recv _ d (by decide : 8192 ≤ 65536)] at stepped
      simp only [NeverFull, Poll.events] at room
      simp only [Poll.events, Poll.parsed]
      cases built : receiveEvent toDouble d.payload recvTsMs other.source with
      | none =>
        simp only [built] at stepped
        cases stepped
        exact ⟨⟨ready.queue, ready.bufs⟩, by simp, by simp, by simp, rfl, by simp⟩
      | some ev =>
        rw [built, Option.toList_some, List.length_singleton] at room
        simp only [built] at stepped
        cases stepped
        let parsing : Receiver := { r with
          buffer := (r.buffer.recv d).2
          parsed := r.parsed ++ [(d, d.payload)] }
        have parsed : r.Adds parsing [] [d] := ⟨by simp [parsing], by simp [parsing],
          by simp [parsing], rfl, rfl⟩
        have ready' : parsing.Ready N m := ⟨ready.queue, ready.bufs⟩
        obtain ⟨ready'', pushed⟩ := record_pushEvent ready' ev room
        exact ⟨ready'', parsed.trans pushed⟩

theorem views_eq {b : UInt64} {g : Group b} (fits : g.arrivals.length ≤ r.batchBufs.length) :
    r.views g = g.arrivals.map fun a => (a, a.datagram.payload) := by
  unfold views messages
  generalize r.batchBufs = bufs at fits
  generalize g.arrivals = arrivals at fits
  induction arrivals generalizing bufs with
  | nil => simp
  | cons a arrivals ih =>
    cases bufs with
    | nil => simp at fits
    | cons buf bufs =>
      have rest := ih bufs (Nat.le_of_succ_le_succ fits)
      simp only [List.zipWith_cons_cons, List.map_cons, List.zip_cons_cons, rest,
        PacketBuf.view_recv _ a.datagram (le_refl 8192)]

/-- The step on the `recvmmsg` path. -/
theorem group_adds {b : UInt64} (ready : r.Ready N m) {g : Group b} (own : 1 < b → m = b.toNat)
    (room : r.NeverFull (Group.events toDouble) (.receive g)) :
    (r.group toDouble g).Ready N m ∧
      r.Adds (r.group toDouble g) (g.events toDouble) g.datagrams := by
  have fits : g.arrivals.length ≤ r.batchBufs.length := by
    rw [ready.bufs, own g.batched]
    exact g.fits
  have views := views_eq fits
  have built : buildEvents toDouble (r.views g) = g.events toDouble := by
    rw [views, buildEvents, List.filterMap_map]
    rfl
  unfold Receiver.group
  split_ifs with none
  · have none := List.isEmpty_iff.mp none
    simp only [Group.events, Group.datagrams, none]
    exact ⟨ready, .refl r⟩
  · let parsing : Receiver := { r with
      batchBufs := (r.messages g).map Prod.snd ++ r.batchBufs.drop g.arrivals.length
      batchesReceived := r.batchesReceived + 1
      parsed := r.parsed ++ (r.views g).map (Prod.map Arrival.datagram id) }
    have parsed : r.Adds parsing [] g.datagrams := by
      refine ⟨by simp [parsing], by simp [parsing], by simp [parsing], rfl, ?_⟩
      simp [parsing, views, Group.datagrams, Function.comp_def]
    have ready' : parsing.Ready N m := by
      refine ⟨ready.queue, ?_⟩
      simp only [parsing, messages, List.length_append, List.length_map, List.length_zipWith,
        List.length_drop]
      rw [← ready.bufs]
      omega
    let events : Batch Event :=
      ⟨buildEvents toDouble (r.views g), buildEvents_length_lt toDouble r g⟩
    have enough : events.items.length ≤
        (parsing.queue.freeSlots parsing.queue.head parsing.queue.tail).toNat := by
      simp only [events, built]
      exact room
    obtain ⟨ready'', pushed⟩ := record_pushEvents ready' events enough
    have both := parsed.trans pushed
    rw [List.append_nil] at both
    rw [← built]
    exact ⟨ready'', both⟩

/-! ### Runs -/

/-- What each pass adds, a run adds together. -/
theorem run_adds {Pass : Type} {step : Receiver → PathStep Pass → Option Receiver}
    {events : Pass → List Event} {parses : Pass → List Datagram}
    (pops : ∀ r, step r .consume = some r.consume)
    (each : ∀ r pass r', r.Ready N m → r.NeverFull events (.receive pass) →
      step r (.receive pass) = some r' → r'.Ready N m ∧ r.Adds r' (events pass) (parses pass))
    {steps : List (PathStep Pass)} (ready : r.Ready N m)
    (room : EveryStep step (NeverFull events) r steps) (ran : run step r steps = some r') :
    r.Adds r' ((passes steps).flatMap events) ((passes steps).flatMap parses) := by
  induction steps generalizing r with
  | nil =>
    cases ran
    exact .refl _
  | cons a steps ih =>
    rw [run_cons_eq_some] at ran
    obtain ⟨mid, stepped, ran⟩ := ran
    have rest := room.2 mid stepped
    cases a with
    | consume =>
      rw [pops] at stepped
      cases stepped
      obtain ⟨items, slots, first, holds⟩ := ready.queue
      obtain ⟨-, slots', holds'⟩ := pop_takes holds
      have ready' : r.consume.Ready N m :=
        ⟨⟨_, (congrArg _ slots').trans slots, holds'⟩, ready.bufs⟩
      have added := ih ready' rest ran
      exact ⟨added.accepted, added.lines, added.processed, added.dropped, added.parsed⟩
    | receive pass =>
      obtain ⟨ready', added⟩ := each r pass mid ready room.1 stepped
      exact added.trans (ih ready' rest ran)

theorem start_ready {q : SpscQueue Event} (holds : q.Represents 0 [] []) (b : UInt64) :
    (start q b).Ready q.capacity.toNat (if 1 < b then b.toNat else 0) := by
  refine ⟨⟨[], rfl, 0, holds⟩, ?_⟩
  unfold start
  split_ifs <;> simp

end Receiver

/-! ### Agreement -/

/-- The events of a datagram received by itself, up to timestamps. -/
def Datagram.events (toDouble : Bytes → Option Double) (d : Datagram) : List Event :=
  (receiveEvent toDouble d.payload 0 d.source).toList.map Event.untimed

theorem events_eq_nil_iff (d : Datagram) :
    d.events toDouble = [] ↔ d.accepted toDouble = false := by
  unfold Datagram.events receiveEvent Datagram.accepted
  cases parse toDouble d.payload <;> simp [Except.isOk, Except.toBool]

/-- Only the parse decides whether there is an event, and up to timestamps the source is all that
the event takes from elsewhere. -/
theorem untimed_receiveEvent (d : Datagram) (recvTsMs : Int) (source : Source) :
    (receiveEvent toDouble d.payload recvTsMs source).toList.map Event.untimed =
      (d.events toDouble).map fun ev => { ev with src := setSrc source.srcMerged } := by
  unfold Datagram.events receiveEvent
  cases parse toDouble d.payload <;> rfl

theorem relabel_eq_iff (d : Datagram) (src : CharBuf srcLen) :
    (d.events toDouble).map (fun ev => { ev with src }) = d.events toDouble ↔
      (d.accepted toDouble = true → setSrc d.source.srcMerged = src) := by
  unfold Datagram.events receiveEvent Datagram.accepted
  cases parse toDouble d.payload with
  | error e => simp [Except.isOk, Except.toBool]
  | ok fields =>
    simp only [Option.toList_some, List.map_singleton, Except.isOk, Except.toBool, forall_const]
    constructor
    · intro same
      exact (congrArg Event.src (List.singleton_inj.mp same)).symm
    · rintro rfl
      rfl

theorem Poll.events_untimed (p : Poll) :
    (p.events toDouble).map Event.untimed =
      match p.first, p.second with
      | some d, some other =>
        (d.events toDouble).map fun ev => { ev with src := setSrc other.source.srcMerged }
      | _, _ => [] := by
  obtain ⟨_ | d, _ | other, recvTsMs⟩ := p
  · rfl
  · rfl
  · rfl
  · exact untimed_receiveEvent d recvTsMs other.source

theorem Poll.events_length_le (p : Poll) :
    ((p.events toDouble).map Event.untimed).length ≤
      (p.datagrams.flatMap (Datagram.events toDouble)).length := by
  rw [Poll.events_untimed]
  obtain ⟨_ | d, _ | other, recvTsMs⟩ := p
  · exact Nat.zero_le _
  · exact Nat.zero_le _
  · exact Nat.zero_le _
  · simp [Poll.datagrams]

/-- A pass is harmless when it stays in bounds and pushes what its datagrams are worth. -/
theorem Poll.harmless_iff (p : Poll) :
    p.Harmless toDouble ↔ ¬ (p.first = none ∧ p.second.isSome = true) ∧
      (p.events toDouble).map Event.untimed = p.datagrams.flatMap (Datagram.events toDouble) := by
  rw [Poll.events_untimed]
  obtain ⟨_ | d, _ | other, recvTsMs⟩ := p
  · simp [Poll.Harmless, Poll.datagrams]
  · simp [Poll.Harmless]
  · simp only [Poll.Harmless, Poll.datagrams, ← events_eq_nil_iff, Option.toList_some,
      Option.toList_none, List.append_nil, List.flatMap_cons, List.flatMap_nil, reduceCtorEq,
      false_and, not_false_eq_true, true_and]
    exact eq_comm
  · simp only [Poll.Harmless, Poll.datagrams, ← events_eq_nil_iff, ← relabel_eq_iff,
      Option.toList_some, List.cons_append, List.nil_append, List.flatMap_cons, List.flatMap_nil,
      List.append_nil, reduceCtorEq, false_and, not_false_eq_true, true_and]
    constructor
    · rintro ⟨none, same⟩
      rw [none, same, List.append_nil]
    · intro same
      have none : other.events toDouble = [] := by
        have lengths := congrArg List.length same
        rw [List.length_map, List.length_append] at lengths
        exact List.eq_nil_of_length_eq_zero (by omega)
      rw [none, List.append_nil] at same
      exact ⟨none, same⟩

theorem Group.events_untimed {b : UInt64} (g : Group b) :
    (g.events toDouble).map Event.untimed =
      g.datagrams.flatMap (Datagram.events toDouble) := by
  rw [Group.events, Group.datagrams, List.filterMap_eq_flatMap_toList, List.map_flatMap,
    List.flatMap_map]
  refine List.flatMap_congr fun a _ => ?_
  rw [untimed_receiveEvent, relabel_eq_iff]
  exact fun _ => rfl

theorem sameRecords {evs evs' : List Event}
    (same : evs.map Event.untimed = evs'.map Event.untimed) :
    List.Forall₂ SameRecord (evs.map recordLine) (evs'.map recordLine) := by
  rw [← List.forall₂_eq_eq_eq, List.forall₂_map_left_iff, List.forall₂_map_right_iff] at same
  rw [List.forall₂_map_left_iff, List.forall₂_map_right_iff]
  exact same.imp fun ev ev' untimed => ⟨ev, ev', rfl, rfl, untimed⟩

namespace Receiver

variable {q : SpscQueue Event} {b b' : UInt64}

theorem Adds.parsesExactly (added : (start q b).Adds r more parses) : r.ParsesExactly := by
  intro e he
  rw [added.parsed] at he
  obtain ⟨d, -, rfl⟩ := List.mem_map.mp he
  rfl

/-- Two runs whose events are the same up to timestamps agree. -/
theorem Adds.agree (first : (start q b).Adds r more parses)
    (second : (start q b').Adds r' more' parses')
    (same : r.accepted.map Event.untimed = r'.accepted.map Event.untimed) : r.Agree r' := by
  refine ⟨same, ?_, ?_, first.dropped.trans second.dropped.symm⟩
  · rw [first.accepted, second.accepted] at same
    rw [first.lines, second.lines]
    exact sameRecords same
  · rw [first.accepted, second.accepted] at same
    have count : more.length = more'.length := by simpa [start] using congrArg List.length same
    rw [first.processed, second.processed, count]
    rfl

end Receiver

theorem mem_passes {Pass : Type} {steps : List (PathStep Pass)} {pass : Pass} :
    pass ∈ passes steps ↔ .receive pass ∈ steps := by
  induction steps with
  | nil => simp [passes]
  | cons a steps ih => cases a <;> simp [passes, ih]

open Receiver

/-- On the `recvfrom` path the run ends where no pass goes out of bounds. -/
theorem poll_run_isSome_iff {polls : List (PathStep Poll)} :
    (run (pollStep toDouble) r polls).isSome = true ↔
      ∀ p ∈ passes polls, ¬ (p.first = none ∧ p.second.isSome = true) := by
  constructor
  · rintro ended p hp
    obtain ⟨r', ran⟩ := Option.isSome_iff_exists.mp ended
    obtain ⟨before, after, stepped⟩ := exists_step_of_run ran _ (mem_passes.mp hp)
    obtain ⟨_ | d, _ | other, recvTsMs⟩ := p
    · simp
    · cases stepped
    · simp
    · simp
  · intro inside
    refine run_isSome (fun a ha before => ?_) r
    cases a with
    | consume => rfl
    | receive p =>
      have inside := inside p (mem_passes.mpr ha)
      obtain ⟨_ | d, _ | other, recvTsMs⟩ := p
      · rfl
      · simp at inside
      · rfl
      · simp only [pollStep, Receiver.poll]
        split <;> rfl

/-- On the `recvmmsg` path every run ends. -/
theorem group_run_isSome {b : UInt64} {groups : List (PathStep (Group b))} :
    (run (groupStep toDouble b) r groups).isSome = true := by
  refine run_isSome (fun a _ before => ?_) r
  cases a <;> rfl

theorem poll_run_adds {q : SpscQueue Event} (holds : q.Represents 0 [] [])
    {polls : List (PathStep Poll)}
    (room : EveryStep (pollStep toDouble) (NeverFull (Poll.events toDouble)) (start q 1) polls)
    (ran : run (pollStep toDouble) (start q 1) polls = some r) :
    (start q 1).Adds r ((passes polls).flatMap (Poll.events toDouble))
      ((passes polls).flatMap Poll.parsed) :=
  run_adds (fun _ => rfl) (fun _ _ _ ready room stepped => poll_adds ready room stepped)
    (start_ready holds 1) room ran

theorem group_run_adds {q : SpscQueue Event} (holds : q.Represents 0 [] []) {b : UInt64}
    {groups : List (PathStep (Group b))}
    (room : EveryStep (groupStep toDouble b) (NeverFull (Group.events toDouble)) (start q b) groups)
    (ran : run (groupStep toDouble b) (start q b) groups = some r) :
    (start q b).Adds r ((passes groups).flatMap (Group.events toDouble))
      ((passes groups).flatMap Group.datagrams) := by
  refine run_adds (fun _ => rfl) (fun r g r' ready room stepped => ?_)
    (start_ready holds b) room ran
  cases stepped
  exact group_adds ready (fun many => if_pos many) room

/-- For the same datagrams the two paths push the same events, up to timestamps, exactly when every
pass of the `recvfrom` path pushes what its datagrams are worth. -/
theorem events_agree_iff {b : UInt64} {polls : List Poll} {groups : List (Group b)}
    (same : polls.flatMap Poll.datagrams = groups.flatMap Group.datagrams) :
    (polls.flatMap (Poll.events toDouble)).map Event.untimed =
        (groups.flatMap (Group.events toDouble)).map Event.untimed ↔
      ∀ p ∈ polls, (p.events toDouble).map Event.untimed =
        p.datagrams.flatMap (Datagram.events toDouble) := by
  have worth : (groups.flatMap (Group.events toDouble)).map Event.untimed =
      polls.flatMap fun p => p.datagrams.flatMap (Datagram.events toDouble) := by
    rw [← List.flatMap_assoc, same, List.flatMap_assoc, List.map_flatMap]
    exact List.flatMap_congr fun g _ => Group.events_untimed g
  rw [worth, List.map_flatMap]
  exact Kit.FlatMap.flatMap_eq_iff fun p _ => Poll.events_length_le p

/-- The receivers of a batch size of one and of `b` agree on what they have done, and each parses
the bytes of each datagram. -/
def PathsAgree (toDouble : Bytes → Option Double) (b : UInt64) (q : SpscQueue Event)
    (polls : List (PathStep Poll)) (groups : List (PathStep (Group b))) : Prop :=
  ∃ single batched, run (pollStep toDouble) (start q 1) polls = some single ∧
    run (groupStep toDouble b) (start q b) groups = some batched ∧
    single.Agree batched ∧ single.ParsesExactly ∧ batched.ParsesExactly

/-- For the same datagrams, however each path takes them, with room in the queue for every pass, the
path of single datagrams agrees with the batched path exactly when all of its passes are
harmless. -/
theorem paths_agree_iff (toDouble : Bytes → Option Double) (b : UInt64) (q : SpscQueue Event)
    (built : SpscQueue.new Event 64 queueCapacity = some q) (polls : List (PathStep Poll))
    (groups : List (PathStep (Group b)))
    (same : (passes polls).flatMap Poll.datagrams = (passes groups).flatMap Group.datagrams)
    (roomSingle : EveryStep (pollStep toDouble) (NeverFull (Poll.events toDouble))
      (start q 1) polls)
    (roomBatched : EveryStep (groupStep toDouble b) (NeverFull (Group.events toDouble)) (start q b)
      groups) :
    PathsAgree toDouble b q polls groups ↔ ∀ p ∈ passes polls, p.Harmless toDouble := by
  obtain ⟨q', built', -, holds, -⟩ := new_eventQueue
  obtain rfl : q' = q := Option.some.inj (built'.symm.trans built)
  have ended : (run (groupStep toDouble b) (start q' b) groups).isSome = true := group_run_isSome
  obtain ⟨batched, ranBatched⟩ := Option.isSome_iff_exists.mp ended
  have batchedAdds := group_run_adds holds roomBatched ranBatched
  have singleAdds := fun single => poll_run_adds (r := single) holds roomSingle
  have agree_iff : ∀ single, run (pollStep toDouble) (start q' 1) polls = some single →
      (single.accepted.map Event.untimed = batched.accepted.map Event.untimed ↔
        ∀ p ∈ passes polls, (p.events toDouble).map Event.untimed =
          p.datagrams.flatMap (Datagram.events toDouble)) := by
    intro single ran
    rw [batchedAdds.accepted, (singleAdds single ran).accepted]
    exact events_agree_iff same
  constructor
  · rintro ⟨single, other, ran, ranOther, agree, -, -⟩ p hp
    obtain rfl : batched = other := Option.some.inj (ranBatched.symm.trans ranOther)
    have inside := poll_run_isSome_iff.mp (Option.isSome_iff_exists.mpr ⟨single, ran⟩) p hp
    exact (Poll.harmless_iff p).mpr ⟨inside, (agree_iff single ran).mp agree.events p hp⟩
  · intro harmless
    obtain ⟨single, ran⟩ := Option.isSome_iff_exists.mp
      ((poll_run_isSome_iff (r := start q' 1)).mpr fun p hp =>
        ((Poll.harmless_iff p).mp (harmless p hp)).1)
    have events := (agree_iff single ran).mpr fun p hp =>
      ((Poll.harmless_iff p).mp (harmless p hp)).2
    exact ⟨single, batched, ran, ranBatched, (singleAdds single ran).agree batchedAdds events,
      (singleAdds single ran).parsesExactly, batchedAdds.parsesExactly⟩

/-- A datagram from port 40000 of the local host. -/
def localDatagram (text : String) (fits : (bytes text).length ≤ 8192) : Datagram :=
  ⟨bytes text, ⟨(127, 0, 0, 1), 40000⟩, fits⟩

def firstQuote : Datagram := localDatagram "1|1000|AAPL|173.50|100" (by decide)

def secondQuote : Datagram := localDatagram "2|1001|AAPL|173.75|50" (by decide)

/-- A pass of the `recvfrom` path, or of the `recvmmsg` path, that takes two datagrams. -/
def pollOf (first second : Datagram) : List (PathStep Poll) :=
  [.receive ⟨some first, some second, 1005⟩]

def groupOf (first second : Datagram) : List (PathStep (Group 2)) :=
  [.receive ⟨[⟨first, 1005⟩, ⟨second, 1006⟩], by decide, le_refl 2⟩]

/-- A quote followed by a datagram that is no quote. -/
theorem paths_agree_iff_on_quote_and_noise :
    ∃ q, SpscQueue.new Event 64 queueCapacity = some q ∧
      PathsAgree stod 2 q (pollOf firstQuote (localDatagram "noise" (by decide)))
        (groupOf firstQuote (localDatagram "noise" (by decide))) := by
  obtain ⟨q, built, -⟩ := new_eventQueue
  have rooms : ∀ q ∈ SpscQueue.new Event 64 queueCapacity,
      EveryStep (pollStep stod) (NeverFull (Poll.events stod)) (start q 1)
        (pollOf firstQuote (localDatagram "noise" (by decide))) ∧
      EveryStep (groupStep stod 2) (NeverFull (Group.events stod)) (start q 2)
        (groupOf firstQuote (localDatagram "noise" (by decide))) := by
    decide +kernel
  obtain ⟨roomSingle, roomBatched⟩ := rooms q built
  refine ⟨q, built, (paths_agree_iff stod 2 q built _ _ rfl roomSingle roomBatched).mpr ?_⟩
  intro p hp
  obtain rfl := List.mem_singleton.mp hp
  exact ⟨by decide +kernel, fun _ => rfl⟩

/-- Of two quotes the `recvfrom` path receives the second into a buffer that it never parses. -/
theorem second_quote_lost :
    (passes (pollOf firstQuote secondQuote)).flatMap Poll.datagrams =
      (passes (groupOf firstQuote secondQuote)).flatMap Group.datagrams ∧
    ∃ q, SpscQueue.new Event 64 queueCapacity = some q ∧
      EveryStep (pollStep stod) (NeverFull (Poll.events stod)) (start q 1)
        (pollOf firstQuote secondQuote) ∧
      EveryStep (groupStep stod 2) (NeverFull (Group.events stod)) (start q 2)
        (groupOf firstQuote secondQuote) ∧
      (run (pollStep stod) (start q 1) (pollOf firstQuote secondQuote)).map
        (fun r => (r.accepted.map Event.seq, r.processed)) = some ([1], 1) ∧
      (run (groupStep stod 2) (start q 2) (groupOf firstQuote secondQuote)).map
        (fun r => (r.accepted.map Event.seq, r.processed)) = some ([1, 2], 2) ∧
      ¬ PathsAgree stod 2 q (pollOf firstQuote secondQuote) (groupOf firstQuote secondQuote) := by
  refine ⟨rfl, ?_⟩
  obtain ⟨q, built, -⟩ := new_eventQueue
  have runs : ∀ q ∈ SpscQueue.new Event 64 queueCapacity,
      EveryStep (pollStep stod) (NeverFull (Poll.events stod)) (start q 1)
        (pollOf firstQuote secondQuote) ∧
      EveryStep (groupStep stod 2) (NeverFull (Group.events stod)) (start q 2)
        (groupOf firstQuote secondQuote) ∧
      (run (pollStep stod) (start q 1) (pollOf firstQuote secondQuote)).map
        (fun r => (r.accepted.map Event.seq, r.processed)) = some ([1], 1) ∧
      (run (groupStep stod 2) (start q 2) (groupOf firstQuote secondQuote)).map
        (fun r => (r.accepted.map Event.seq, r.processed)) = some ([1, 2], 2) := by
    decide +kernel
  obtain ⟨roomSingle, roomBatched, single, batched⟩ := runs q built
  refine ⟨q, built, roomSingle, roomBatched, single, batched, ?_⟩
  rintro ⟨r, r', ran, ran', agree, -, -⟩
  rw [ran] at single
  rw [ran'] at batched
  simp only [Option.map_some, Option.some.injEq, Prod.mk.injEq] at single batched
  have processed := agree.processed
  rw [single.2, batched.2] at processed
  exact absurd processed (by decide)

end EtradePipeline
