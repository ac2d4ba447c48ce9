import EtradePipeline.Queue.SpscQueue
import EtradePipeline.Kit.Transition

/-! The queue at the granularity of single accesses.  One producer runs pushes and one consumer runs
pops, and every load or store of an index and every read or write of a slot is a step of its own.
Between two accesses each side works with the indices that it has loaded, while the other side
moves on.  Besides the shared memory the machine records what has been accepted, with the slots that
it was written to, and what has been popped. -/

namespace EtradePipeline

open Kit.Transition

/-- Where the producer is: the access that comes next, with the values that it has in hand. -/
inductive Producer (T : Type) where
  | idle
  | loadHead (item : T) (tail : UInt64)
  | writeItem (item : T) (tail next : UInt64)
  | storeTail (next : UInt64)
  | loadTail (batch : Batch T) (head : UInt64)
  | writeBatch (batch : Batch T) (tail toPush i : UInt64)

inductive Consumer (T : Type) where
  | idle
  | loadTail (head : UInt64)
  | readItem (head : UInt64)
  | storeHead (head : UInt64) (item : T)

/-- What a push or bulk push was asked for and returned, and the room that the queue had when it
loaded the head. -/
structure PushResult where
  wanted : Nat
  pushed : Nat
  room : Nat

/-- The shared queue with both sides, and the record of the run: the items accepted so far with
their slots, the items popped so far, the items written but not yet published, the room when the
producer last loaded the head, and the results of the pushes, latest first. -/
structure Machine (T : Type) where
  queue : SpscQueue T
  producer : Producer T
  consumer : Consumer T
  accepted : List (T × Nat)
  popped : List T
  pending : List (T × Nat)
  seenRoom : Nat
  results : List PushResult

/-- A step: the start of a call, with its first access, or the next access of a side. -/
inductive Access (T : Type) where
  | push (item : T)
  | pushBulk (batch : Batch T)
  | produce
  | pop
  | consume

namespace Machine

variable {T : Type}

/-- The two sides before any call. -/
def start (queue : SpscQueue T) : Machine T := ⟨queue, .idle, .idle, [], [], [], 0, []⟩

/-- The items accepted and not yet popped. -/
def unread (m : Machine T) : List (T × Nat) := m.accepted.drop m.popped.length

/-- The room that the queue has. -/
def room (m : Machine T) : Nat := m.queue.capacity.toNat - 1 - m.unread.length

/-- The end of a push or bulk push. -/
def finish (m : Machine T) (wanted pushed : Nat) : Machine T :=
  { m with producer := .idle, results := ⟨wanted, pushed, m.seenRoom⟩ :: m.results }

def seeHead (m : Machine T) : Machine T := { m with seenRoom := m.room }

def write (m : Machine T) (slot : UInt64) (item : T) : Machine T :=
  { m with
    queue.buffer := m.queue.buffer.set slot.toNat item
    pending := m.pending ++ [(item, slot.toNat)] }

def publish (m : Machine T) (tail : UInt64) : Machine T :=
  { m with queue.tail := tail, accepted := m.accepted ++ m.pending, pending := [] }

/-- The next access of the producer. -/
def produce (m : Machine T) : Option (Machine T) :=
  match m.producer with
  | .idle => none
  | .loadHead item tail =>
    let next := (tail + 1) &&& m.queue.mask
    if next = m.queue.head then some (m.seeHead.finish 1 0)
    else some { m.seeHead with producer := .writeItem item tail next }
  | .writeItem item tail next => some { m.write tail item with producer := .storeTail next }
  | .storeTail next => some ((m.publish next).finish 1 1)
  | .loadTail batch head =>
    let tail := m.queue.tail
    let freeSlots := m.queue.freeSlots head tail
    if freeSlots = 0 then some (m.finish batch.n.toNat 0)
    else some { m with
      producer := .writeBatch batch tail (SpscQueue.toPush batch.n freeSlots) 0 }
  | .writeBatch batch tail toPush i =>
    if i < toPush then
      match batch.items[i.toNat]? with
      | some item => some { m.write ((tail + i) &&& m.queue.mask) item with
          producer := .writeBatch batch tail toPush (i + 1) }
      | none => none
    else some ((m.publish ((tail + toPush) &&& m.queue.mask)).finish batch.n.toNat toPush.toNat)

/-- The next access of the consumer. -/
def consume [Inhabited T] (m : Machine T) : Option (Machine T) :=
  match m.consumer with
  | .idle => none
  | .loadTail head =>
    if head = m.queue.tail then some { m with consumer := .idle }
    else some { m with consumer := .readItem head }
  | .readItem head =>
    some { m with consumer := .storeHead head (m.queue.buffer.getD head.toNat default) }
  | .storeHead head item => some { m with
      queue.head := (head + 1) &&& m.queue.mask
      popped := m.popped ++ [item]
      consumer := .idle }

/-- The machine after a step, when it is enabled. -/
def step [Inhabited T] (m : Machine T) : Access T → Option (Machine T)
  | .push item =>
    match m.producer with
    | .idle => some { m with producer := .loadHead item m.queue.tail }
    | _ => none
  | .pushBulk batch =>
    match m.producer with
    | .idle =>
      if batch.n = 0 then some (m.seeHead.finish 0 0)
      else some { m.seeHead with producer := .loadTail batch m.queue.head }
    | _ => none
  | .produce => m.produce
  | .pop =>
    match m.consumer with
    | .idle => some { m with consumer := .loadTail m.queue.head }
    | _ => none
  | .consume => m.consume

/-- The slot that the producer writes next, if its next access is a write. -/
def nextWrite (m : Machine T) : Option Nat :=
  match m.producer with
  | .writeItem _ tail _ => some tail.toNat
  | .writeBatch _ tail toPush i =>
    if i < toPush then some ((tail + i) &&& m.queue.mask).toNat else none
  | _ => none

/-- The slot that the consumer reads next, if its next access is a read. -/
def nextRead (m : Machine T) : Option Nat :=
  match m.consumer with
  | .readItem head => some head.toNat
  | _ => none

/-- What is safe about a state: the producer is not about to write a slot with an unread item, the
consumer is not about to read a slot but that of the first unread item, the indices are in range,
the popped items are the first accepted ones in order, and a push that accepted less than it was
asked for had no more room when it loaded the head. -/
structure Safe (m : Machine T) : Prop where
  writes : ∀ slot, m.nextWrite = some slot → ∀ e ∈ m.unread, e.2 ≠ slot
  reads : ∀ slot, m.nextRead = some slot →
    ∃ item rest, m.unread = (item, slot) :: rest ∧ m.queue.buffer[slot]? = some item
  indices : m.queue.head < m.queue.capacity ∧ m.queue.tail < m.queue.capacity
  order : m.popped <+: m.accepted.map Prod.fst
  results : ∀ r ∈ m.results, r.pushed < r.wanted → r.pushed = r.room

/-! ### The invariant -/

/-- The slots of entries whose first is at position `first`. -/
def Tagged (N first : Nat) (entries : List (T × Nat)) : Prop :=
  ∀ i e, entries[i]? = some e → e.2 = (first + i) % N

/-- What the producer's stage says of its local values, with the queue, the number of items popped
and unread, and the pending entries. -/
def ProducerAt (q : SpscQueue T) (popped unread : Nat) (pending : List (T × Nat)) (seen : Nat) :
    Producer T → Prop
  | .idle => pending = []
  | .loadHead _ tail => pending = [] ∧ tail = q.tail
  | .writeItem _ tail next => pending = [] ∧ tail = q.tail ∧ next = (q.tail + 1) &&& q.mask ∧
      unread + 1 < q.capacity.toNat
  | .storeTail next => pending.length = 1 ∧ next = (q.tail + 1) &&& q.mask
  | .loadTail _ head => pending = [] ∧ ∃ before ≤ popped,
      head.toNat = before % q.capacity.toNat ∧ popped + unread - before < q.capacity.toNat ∧
      seen = q.capacity.toNat - 1 - (popped + unread - before)
  | .writeBatch batch tail toPush i => tail = q.tail ∧ pending.length = i.toNat ∧ i ≤ toPush ∧
      toPush.toNat = min batch.items.length seen ∧ unread + toPush.toNat < q.capacity.toNat

/-- What the consumer's stage says of its local values. -/
def ConsumerAt (q : SpscQueue T) (unread : List (T × Nat)) : Consumer T → Prop
  | .idle => True
  | .loadTail head => head = q.head
  | .readItem head => head = q.head ∧ unread ≠ []
  | .storeHead head item => head = q.head ∧ ∃ slot rest, unread = (item, slot) :: rest

/-- The invariant: the queue holds the unread and the pending items, in the slots recorded for
them. -/
structure Inv (m : Machine T) : Prop where
  order : (m.accepted.take m.popped.length).map Prod.fst = m.popped
  holds : m.queue.Represents m.popped.length (m.unread.map Prod.fst) (m.pending.map Prod.fst)
  tagged : Tagged m.queue.capacity.toNat m.popped.length (m.unread ++ m.pending)
  producer : ProducerAt m.queue m.popped.length m.unread.length m.pending m.seenRoom m.producer
  consumer : ConsumerAt m.queue m.unread m.consumer
  results : ∀ r ∈ m.results, r.pushed < r.wanted → r.pushed = r.room

variable {m m' : Machine T}

theorem ConsumerAt.grow {q : SpscQueue T} {unread more : List (T × Nat)} {c : Consumer T}
    (at_ : ConsumerAt q unread c) {buffer : List T} {tail : UInt64} :
    ConsumerAt { q with buffer, tail } (unread ++ more) c := by
  cases c with
  | idle => trivial
  | loadTail head => exact at_
  | readItem head => exact ⟨at_.1, by simp [at_.2]⟩
  | storeHead head item =>
    obtain ⟨same, slot, rest, first⟩ := at_
    exact ⟨same, slot, rest ++ more, by rw [first, List.cons_append]⟩

theorem ProducerAt.pop {q : SpscQueue T} {popped unread seen : Nat} {pending : List (T × Nat)}
    {p : Producer T} (at_ : ProducerAt q popped (unread + 1) pending seen p) {head : UInt64} :
    ProducerAt { q with head } (popped + 1) unread pending seen p := by
  cases p with
  | idle | loadHead | storeTail => exact at_
  | writeItem item tail next =>
    obtain ⟨none, same, step, room⟩ := at_
    exact ⟨none, same, step, Nat.lt_of_succ_lt room⟩
  | loadTail batch head =>
    obtain ⟨none, before, older, slot, less, seen⟩ := at_
    have moved : popped + 1 + unread - before = popped + (unread + 1) - before := by omega
    exact ⟨none, before, by omega, slot, moved ▸ less, moved ▸ seen⟩
  | writeBatch batch tail toPush i =>
    obtain ⟨same, written, behind, count, room⟩ := at_
    refine ⟨same, written, behind, count, ?_⟩
    show unread + toPush.toNat < q.capacity.toNat
    omega

theorem Tagged.snoc {N first : Nat} {entries : List (T × Nat)} (tagged : Tagged N first entries)
    {item : T} {slot : Nat} (next : slot = (first + entries.length) % N) :
    Tagged N first (entries ++ [(item, slot)]) := by
  intro i e found
  rcases Nat.lt_trichotomy i entries.length with early | rfl | late
  · rw [List.getElem?_append_left early] at found
    exact tagged i e found
  · rw [List.getElem?_concat_length] at found
    cases found
    exact next
  · rw [List.getElem?_eq_none (by rw [List.length_append, List.length_singleton]; omega)] at found
    cases found

theorem Tagged.tail {N first : Nat} {e : T × Nat} {entries : List (T × Nat)}
    (tagged : Tagged N first (e :: entries)) : Tagged N (first + 1) entries := by
  intro i e' found
  have := tagged (i + 1) e' (by simpa using found)
  rwa [← Nat.add_assoc, Nat.add_right_comm] at this

theorem Tagged.fresh {N first : Nat} {entries : List (T × Nat)} (tagged : Tagged N first entries)
    {j : Nat} (behind : entries.length ≤ j) (room : j < N) :
    ∀ e ∈ entries, e.2 ≠ (first + j) % N := by
  intro e he
  obtain ⟨i, bound, rfl⟩ := List.mem_iff_getElem.mp he
  rw [tagged i _ (List.getElem?_eq_getElem bound)]
  exact Kit.Ring.slot_ne (by omega) (by omega)

theorem Inv.popped_le (inv : m.Inv) : m.popped.length ≤ m.accepted.length := by
  have := congrArg List.length inv.order
  rw [List.length_map, List.length_take] at this
  omega

theorem unread_append (inv : m.Inv) (more : List (T × Nat)) :
    (m.accepted ++ more).drop m.popped.length = m.unread ++ more :=
  List.drop_append_of_le_length inv.popped_le

theorem order_append (inv : m.Inv) (more : List (T × Nat)) :
    ((m.accepted ++ more).take m.popped.length).map Prod.fst = m.popped := by
  rw [List.take_append_of_le_length inv.popped_le]
  exact inv.order

/-! ### Producer steps -/

theorem Inv.write (inv : m.Inv) {item : T} {slot : UInt64}
    (room : m.unread.length + m.pending.length + 1 < m.queue.capacity.toNat)
    (next : slot.toNat =
      (m.popped.length + m.unread.length + m.pending.length) % m.queue.capacity.toNat)
    {producer : Producer T}
    (at_ : ProducerAt m.queue m.popped.length m.unread.length (m.pending ++ [(item, slot.toNat)])
      m.seenRoom producer) : Inv { m.write slot item with producer } := by
  refine ⟨inv.order, ?_, ?_, ?_, inv.consumer, inv.results⟩
  · have written := inv.holds.write (x := item) (by simpa using room) (by simpa using next)
    simp only [Machine.write, List.map_append, List.map_singleton]
    exact written
  · have behind : slot.toNat =
        (m.popped.length + (m.unread ++ m.pending).length) % m.queue.capacity.toNat := by
      rw [List.length_append, ← Nat.add_assoc]
      exact next
    have tagged : Tagged _ _ (m.unread ++ m.pending ++ [(item, slot.toNat)]) :=
      inv.tagged.snoc behind
    rwa [List.append_assoc] at tagged
  · cases producer <;> exact at_

theorem Inv.publish (inv : m.Inv) {tail : UInt64} {wanted pushed : Nat}
    (next : tail.toNat =
      (m.popped.length + m.unread.length + m.pending.length) % m.queue.capacity.toNat)
    (full : pushed < wanted → pushed = m.seenRoom) :
    Inv ((m.publish tail).finish wanted pushed) := by
  have unread : ((m.publish tail).finish wanted pushed).unread = m.unread ++ m.pending :=
    unread_append inv m.pending
  refine ⟨order_append inv m.pending, ?_, ?_, rfl, ?_, ?_⟩
  · rw [unread, List.map_append]
    exact inv.holds.publish (by simpa using next)
  · rw [unread]
    simpa [finish, Machine.publish] using inv.tagged
  · rw [unread]
    exact inv.consumer.grow
  · intro r hr
    rcases List.mem_cons.mp hr with rfl | hr
    · exact full
    · exact inv.results r hr

/-- The end of a push that accepts less than it could, after a load of the head that saw the
room. -/
theorem Inv.refuse (inv : m.Inv) (none : m.pending = []) {seen wanted pushed : Nat}
    (full : pushed < wanted → pushed = seen) :
    Inv ({ m with seenRoom := seen }.finish wanted pushed) := by
  refine ⟨inv.order, inv.holds, inv.tagged, none, inv.consumer, fun r hr => ?_⟩
  rcases List.mem_cons.mp hr with rfl | hr
  · exact full
  · exact inv.results r hr

theorem inv_loadHead {item : T} {tail : UInt64} (inv : m.Inv)
    (stage : m.producer = .loadHead item tail) (stepped : m.produce = some m') : m'.Inv := by
  have room := inv.holds.room
  have full := inv.holds.full_iff
  have at_ := inv.producer
  rw [stage] at at_
  obtain ⟨none, rfl⟩ := at_
  rw [List.length_map, List.length_map, none, List.length_nil] at room
  rw [List.length_map] at full
  simp only [produce, stage] at stepped
  split_ifs at stepped with behind
  · cases stepped
    apply inv.refuse none
    have := full.mp behind
    unfold Machine.room
    omega
  · cases stepped
    have := mt full.mpr behind
    have free : m.unread.length + 1 < m.queue.capacity.toNat := by omega
    exact ⟨inv.order, inv.holds, inv.tagged, ⟨none, rfl, rfl, free⟩, inv.consumer, inv.results⟩

theorem inv_loadTail {batch : Batch T} {head : UInt64} (inv : m.Inv)
    (stage : m.producer = .loadTail batch head) (stepped : m.produce = some m') : m'.Inv := by
  have at_ := inv.producer
  rw [stage] at at_
  obtain ⟨none, before, older, slot, less, seen⟩ := at_
  have last : m.queue.tail.toNat =
      (before + (m.popped.length + m.unread.length - before)) % m.queue.capacity.toNat := by
    rw [inv.holds.tail, List.length_map]
    congr 1
    omega
  have free := SpscQueue.toNat_freeSlots inv.holds.power less slot last
  rw [← seen] at free
  simp only [produce, stage] at stepped
  split_ifs at stepped with full
  · cases stepped
    apply inv.refuse none
    intro _
    rw [← free, full]
    rfl
  · cases stepped
    have count : batch.n.toNat = batch.items.length := UInt64.toNat_ofNat_of_lt' batch.fits
    have taken : (SpscQueue.toPush batch.n (m.queue.freeSlots head m.queue.tail)).toNat =
        min batch.items.length m.seenRoom := by
      rw [SpscQueue.toNat_toPush, count, free]
    have covered : m.unread.length +
        (SpscQueue.toPush batch.n (m.queue.freeSlots head m.queue.tail)).toNat <
          m.queue.capacity.toNat := by
      rw [taken]
      omega
    exact ⟨inv.order, inv.holds, inv.tagged, ⟨rfl, by rw [none]; rfl,
      UInt64.le_iff_toNat_le.mpr (Nat.zero_le _), taken, covered⟩, inv.consumer, inv.results⟩

theorem inv_writeBatch {batch : Batch T} {tail toPush i : UInt64} (inv : m.Inv)
    (stage : m.producer = .writeBatch batch tail toPush i) (stepped : m.produce = some m') :
    m'.Inv := by
  have at_ := inv.producer
  rw [stage] at at_
  obtain ⟨rfl, written, behind, count, free⟩ := at_
  rw [UInt64.le_iff_toNat_le] at behind
  simp only [produce, stage] at stepped
  split_ifs at stepped with more
  · split at stepped
    · cases stepped
      rw [UInt64.lt_iff_toNat_lt] at more
      have step := SpscQueue.toNat_add_one more
      refine inv.write (by omega) ?_ ⟨rfl, ?_, ?_, count, free⟩
      · rw [inv.holds.toNat_behind_tail, written, List.length_map]
      · rw [List.length_append, List.length_singleton, written, step]
      · rw [UInt64.le_iff_toNat_le, step]
        exact more
    · cases stepped
  · cases stepped
    rw [UInt64.lt_iff_toNat_lt] at more
    have asked : batch.n.toNat = batch.items.length := UInt64.toNat_ofNat_of_lt' batch.fits
    refine inv.publish ?_ (by omega)
    rw [inv.holds.toNat_behind_tail, List.length_map]
    congr 2
    omega

theorem inv_produce (inv : m.Inv) (stepped : m.produce = some m') : m'.Inv := by
  have at_ := inv.producer
  cases stage : m.producer with
  | idle =>
    rw [produce, stage] at stepped
    cases stepped
  | loadHead item tail => exact inv_loadHead inv stage stepped
  | writeItem item tail next =>
    rw [produce, stage] at stepped
    rw [stage] at at_
    obtain ⟨none, rfl, rfl, free⟩ := at_
    cases stepped
    refine inv.write (by rw [none]; exact free) ?_ ⟨by rw [none]; rfl, rfl⟩
    rw [none, inv.holds.tail, List.length_map]
    rfl
  | storeTail next =>
    rw [produce, stage] at stepped
    rw [stage] at at_
    obtain ⟨one, rfl⟩ := at_
    cases stepped
    refine inv.publish ?_ (by omega)
    rw [inv.holds.toNat_behind_tail, one, List.length_map]
    rfl
  | loadTail batch head => exact inv_loadTail inv stage stepped
  | writeBatch batch tail toPush i => exact inv_writeBatch inv stage stepped

/-! ### Consumer steps -/

/-- The store of the head that hands out the first unread entry. -/
theorem Inv.advance (inv : m.Inv) {item : T} {slot : Nat} {rest : List (T × Nat)}
    (first : m.unread = (item, slot) :: rest) :
    Inv { m with
      queue.head := (m.queue.head + 1) &&& m.queue.mask
      popped := m.popped ++ [item]
      consumer := .idle } := by
  have length : (m.popped ++ [item]).length = m.popped.length + 1 := by
    rw [List.length_append, List.length_singleton]
  have unread : m.accepted.drop (m.popped ++ [item]).length = rest := by
    rw [length, ← List.drop_drop]
    show m.unread.drop 1 = rest
    rw [first]
    rfl
  have holds := inv.holds
  have tagged := inv.tagged
  have producer := inv.producer
  rw [first] at holds tagged producer
  refine ⟨?_, ?_, ?_, ?_, trivial, inv.results⟩
  · show (m.accepted.take (m.popped ++ [item]).length).map Prod.fst = m.popped ++ [item]
    have taken : m.accepted.take (m.popped.length + 1) =
        m.accepted.take m.popped.length ++ [(item, slot)] := by
      rw [List.take_add, show m.accepted.drop m.popped.length = m.unread from rfl, first]
      rfl
    rw [length, taken, List.map_append, inv.order]
    rfl
  · show SpscQueue.Represents _ (m.popped ++ [item]).length
      ((m.accepted.drop (m.popped ++ [item]).length).map Prod.fst) _
    rw [unread, length]
    exact holds.advance
  · show Tagged _ (m.popped ++ [item]).length
      (m.accepted.drop (m.popped ++ [item]).length ++ m.pending)
    rw [unread, length]
    exact tagged.tail
  · show ProducerAt _ (m.popped ++ [item]).length
      (m.accepted.drop (m.popped ++ [item]).length).length m.pending m.seenRoom m.producer
    rw [unread, length]
    exact producer.pop

theorem inv_consume [Inhabited T] (inv : m.Inv) (stepped : m.consume = some m') : m'.Inv := by
  have at_ := inv.consumer
  unfold consume at stepped
  cases stage : m.consumer with
  | idle =>
    rw [stage] at stepped
    cases stepped
  | loadTail head =>
    rw [stage] at stepped at_
    obtain rfl := at_
    simp only at stepped
    split_ifs at stepped with none
    · cases stepped
      exact ⟨inv.order, inv.holds, inv.tagged, inv.producer, trivial, inv.results⟩
    · cases stepped
      have some : m.unread ≠ [] := by simpa using mt inv.holds.empty_iff.mpr none
      exact ⟨inv.order, inv.holds, inv.tagged, inv.producer, ⟨rfl, some⟩, inv.results⟩
  | readItem head =>
    rw [stage] at stepped at_
    obtain ⟨rfl, some⟩ := at_
    cases stepped
    obtain ⟨⟨item, slot⟩, rest, first⟩ := List.exists_cons_of_ne_nil some
    have holds := inv.holds
    rw [first, List.map_cons] at holds
    refine ⟨inv.order, inv.holds, inv.tagged, inv.producer, ⟨rfl, slot, rest, ?_⟩, inv.results⟩
    rw [holds.read]
    exact first
  | storeHead head item =>
    rw [stage] at stepped at_
    obtain ⟨rfl, slot, rest, first⟩ := at_
    cases stepped
    exact inv.advance first

/-! ### Runs -/

/-- The step. -/
theorem inv_step [Inhabited T] {access : Access T} (inv : m.Inv)
    (stepped : m.step access = some m') :
    m'.Inv := by
  have at_ := inv.producer
  have room := inv.holds.room
  rw [List.length_map, List.length_map] at room
  cases access with
  | push item =>
    simp only [step] at stepped
    split at stepped
    · rename_i idle
      rw [idle] at at_
      cases stepped
      exact ⟨inv.order, inv.holds, inv.tagged, ⟨at_, rfl⟩, inv.consumer, inv.results⟩
    · cases stepped
  | pushBulk batch =>
    simp only [step] at stepped
    split at stepped
    · rename_i idle
      rw [idle] at at_
      split_ifs at stepped with none
      · cases stepped
        exact inv.refuse at_ fun less => absurd less (Nat.lt_irrefl 0)
      · cases stepped
        have now : m.popped.length + m.unread.length - m.popped.length = m.unread.length := by omega
        refine ⟨inv.order, inv.holds, inv.tagged,
          ⟨at_, m.popped.length, le_refl _, inv.holds.head, ?_, ?_⟩, inv.consumer, inv.results⟩
        · show m.popped.length + m.unread.length - m.popped.length < m.queue.capacity.toNat
          omega
        · show m.room = m.queue.capacity.toNat - 1 -
            (m.popped.length + m.unread.length - m.popped.length)
          rw [now]
          rfl
    · cases stepped
  | produce => exact inv_produce inv stepped
  | pop =>
    simp only [step] at stepped
    split at stepped
    · cases stepped
      exact ⟨inv.order, inv.holds, inv.tagged, inv.producer, rfl, inv.results⟩
    · cases stepped
  | consume => exact inv_consume inv stepped

theorem inv_start {q : SpscQueue T} (holds : q.Represents 0 [] []) : (start q).Inv :=
  ⟨rfl, holds, fun i e found => by simp [start, unread] at found, rfl, trivial, by simp [start]⟩

theorem Inv.tagged_unread (inv : m.Inv) :
    Tagged m.queue.capacity.toNat m.popped.length m.unread := by
  intro i e found
  obtain ⟨bound, -⟩ := List.getElem?_eq_some_iff.mp found
  exact inv.tagged i e (by rw [List.getElem?_append_left bound, found])

/-- The slot that the producer writes next is free. -/
theorem Inv.write_free (inv : m.Inv) {slot : Nat} (next : m.nextWrite = some slot) :
    ∀ e ∈ m.unread, e.2 ≠ slot := by
  have room := inv.holds.room
  have at_ := inv.producer
  rw [List.length_map, List.length_map] at room
  unfold nextWrite at next
  cases stage : m.producer with
  | idle | loadHead | storeTail | loadTail =>
    rw [stage] at next
    cases next
  | writeItem item tail step =>
    rw [stage] at next at_
    obtain ⟨none, rfl, -⟩ := at_
    cases next
    rw [inv.holds.tail, List.length_map]
    exact inv.tagged_unread.fresh (le_refl _) (by omega)
  | writeBatch batch tail toPush i =>
    rw [stage] at next at_
    obtain ⟨rfl, written, behind, count, free⟩ := at_
    simp only at next
    split_ifs at next with more
    cases next
    rw [UInt64.lt_iff_toNat_lt] at more
    rw [inv.holds.toNat_behind_tail, List.length_map, Nat.add_assoc]
    exact inv.tagged_unread.fresh (by omega) (by omega)

/-- The slot that the consumer reads next has the first unread item. -/
theorem Inv.read_first (inv : m.Inv) {slot : Nat} (next : m.nextRead = some slot) :
    ∃ item rest, m.unread = (item, slot) :: rest ∧ m.queue.buffer[slot]? = some item := by
  unfold nextRead at next
  cases stage : m.consumer with
  | idle | loadTail | storeHead =>
    rw [stage] at next
    cases next
  | readItem head =>
    have at_ := inv.consumer
    rw [stage] at next at_
    obtain ⟨rfl, some⟩ := at_
    cases next
    obtain ⟨⟨item, slot⟩, rest, first⟩ := List.exists_cons_of_ne_nil some
    have holds := inv.holds
    rw [first, List.map_cons] at holds
    have own : slot = m.queue.head.toNat := by
      rw [inv.holds.head]
      exact inv.tagged_unread 0 (item, slot) (by rw [first]; rfl)
    refine ⟨item, rest, own ▸ first, ?_⟩
    rw [holds.head]
    exact holds.holds.head

theorem Inv.safe (inv : m.Inv) : m.Safe where
  writes _ next := inv.write_free next
  reads _ next := inv.read_first next
  indices :=
    ⟨UInt64.lt_iff_toNat_lt.mpr inv.holds.head_lt, UInt64.lt_iff_toNat_lt.mpr inv.holds.tail_lt⟩
  order := by
    rw [← inv.order]
    exact (List.take_prefix _ _).map _
  results := inv.results

end Machine

open Machine

/-- In every state of every run of accesses on a new queue of any capacity up to 2^63, in any order
of the two sides, the queue is safe. -/
theorem queue_accesses_safe (T : Type) [Inhabited T] (fuel : Nat) (enough : 64 ≤ fuel)
    (requested : UInt64) (bound : requested.toNat ≤ 2 ^ 63) (accesses : List (Access T)) :
    ∃ q, SpscQueue.new T fuel requested = some q ∧
      EveryState step Safe (start q) accesses := by
  obtain ⟨q, built, -, holds⟩ := SpscQueue.new_represents (T := T) enough bound
  refine ⟨q, built, ?_⟩
  refine everyState_of_everyStep (I := Inv) (fun m access m' inv _ stepped => inv_step inv stepped)
    (fun m inv => inv.safe) (inv_start holds) (everyStep_true _ _)

/-- A pop that runs between the load of the head and the load of the tail of a bulk push. -/
theorem queue_accesses_safe_over_stale_head :
    ∃ q, SpscQueue.new Nat 64 2 = some q ∧
      EveryState step Safe (start q) [.push 1, .produce, .produce, .produce, .pop, .consume,
        .pushBulk ⟨[2, 3], by decide⟩, .consume, .consume, .produce] :=
  queue_accesses_safe Nat 64 (by decide) 2 (by decide) _

end EtradePipeline
