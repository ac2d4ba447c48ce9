import EtradePipeline.Kit.Ring
import Mathlib.Order.Bounds.Basic

/-! The single-producer single-consumer queue (`spsc_queue.h`), each call run alone.  One slot stays
unused, so that equal indices mean an empty queue.  A queue represents a list of items when its
slots hold them from the head on. -/

namespace EtradePipeline

open Kit.Ring (Holds PowerOfTwo holds_nil)

structure SpscQueue (T : Type) where
  capacity : UInt64
  buffer : List T
  head : UInt64
  tail : UInt64
  shutdown : Bool

/-- The items of a bulk push.  Their number is a `size_t`. -/
structure Batch (T : Type) where
  items : List T
  fits : items.length < 2 ^ 64

def Batch.n {T : Type} (batch : Batch T) : UInt64 := UInt64.ofNat batch.items.length

/-- The loop of `normalize_capacity`, or `none` when it has not ended after `fuel` rounds. -/
def doubleUntil (cap : UInt64) : Nat → UInt64 → Option UInt64
  | 0, _ => none
  | fuel + 1, n => if n < cap then doubleUntil cap fuel (n <<< 1) else some n

def normalizeCapacity (fuel : Nat) (cap : UInt64) : Option UInt64 :=
  let cap := if cap < 2 then 2 else cap
  doubleUntil cap fuel 1

namespace SpscQueue

variable {T : Type}

/-- The constructor. -/
def new (T : Type) [Inhabited T] (fuel : Nat) (capacity : UInt64) : Option (SpscQueue T) :=
  (normalizeCapacity fuel capacity).map fun capacity =>
    ⟨capacity, List.replicate capacity.toNat default, 0, 0, false⟩

def mask (q : SpscQueue T) : UInt64 := q.capacity - 1

/-- `push`, in both of its overloads. -/
def push (q : SpscQueue T) (item : T) : Bool × SpscQueue T :=
  let tail := q.tail
  let next := (tail + 1) &&& q.mask
  if next = q.head then (false, q)
  else (true, { q with buffer := q.buffer.set tail.toNat item, tail := next })

/-- The loop of `push_bulk` from its index `i` on: `buffer_` after it writes the items that are
left. -/
def writeSlots (mask tail : UInt64) : List T → UInt64 → List T → List T
  | [], _, buffer => buffer
  | item :: items, i, buffer =>
    writeSlots mask tail items (i + 1) (buffer.set ((tail + i) &&& mask).toNat item)

/-- The number of slots that `push_bulk` finds free. -/
def freeSlots (q : SpscQueue T) (head tail : UInt64) : UInt64 :=
  let size := (tail - head) &&& q.mask
  q.mask - size

def toPush (n freeSlots : UInt64) : UInt64 := if n ≤ freeSlots then n else freeSlots

def pushBulk (q : SpscQueue T) (batch : Batch T) : UInt64 × SpscQueue T :=
  if batch.n = 0 then (0, q)
  else
    let freeSlots := q.freeSlots q.head q.tail
    if freeSlots = 0 then (0, q)
    else
      let toPush := toPush batch.n freeSlots
      (toPush, { q with
        buffer := writeSlots q.mask q.tail (batch.items.take toPush.toNat) 0 q.buffer
        tail := (q.tail + toPush) &&& q.mask })

/-- `pop`: the item that it hands out when it returns true. -/
def pop [Inhabited T] (q : SpscQueue T) : Option T × SpscQueue T :=
  let head := q.head
  if head = q.tail then (none, q)
  else (some (q.buffer.getD head.toNat default), { q with head := (head + 1) &&& q.mask })

def empty (q : SpscQueue T) : Bool := decide (q.head = q.tail)

def approxSize (q : SpscQueue T) : UInt64 :=
  let h := q.head
  let t := q.tail
  if h ≤ t then t - h else q.capacity - (h - t)

/-- The items in the slots from the head up to the tail. -/
def content [Inhabited T] (q : SpscQueue T) : List T :=
  (List.range q.approxSize.toNat).map fun i =>
    q.buffer.getD ((q.head + UInt64.ofNat i) &&& q.mask).toNat default

def notifyShutdown (q : SpscQueue T) : SpscQueue T := { q with shutdown := true }

def isShutdown (q : SpscQueue T) : Bool := q.shutdown

/-! ### What the slots hold -/

/-- A count below another does not wrap around. -/
theorem toNat_add_one {i n : UInt64} (less : i.toNat < n.toNat) : (i + 1).toNat = i.toNat + 1 := by
  have bound := n.toNat_lt
  rw [UInt64.toNat_add, UInt64.toNat_one]
  exact Nat.mod_eq_of_lt (by omega)

/-- What the subtraction of masked indices finds free. -/
theorem toNat_freeSlots {q : SpscQueue T} {head tail : UInt64} {first n : Nat}
    (power : PowerOfTwo q.capacity) (less : n < q.capacity.toNat)
    (hhead : head.toNat = first % q.capacity.toNat)
    (htail : tail.toNat = (first + n) % q.capacity.toNat) :
    (q.freeSlots head tail).toNat = q.capacity.toNat - 1 - n := by
  have size := power.toNat_sub_and_mask less hhead htail
  unfold freeSlots
  rw [UInt64.toNat_sub_of_le, mask, power.toNat_mask, size]
  rw [UInt64.le_iff_toNat_le, mask, power.toNat_mask, size]
  omega

theorem toNat_toPush {n freeSlots : UInt64} :
    (toPush n freeSlots).toNat = min n.toNat freeSlots.toNat := by
  unfold toPush
  split_ifs with less
  · rw [UInt64.le_iff_toNat_le] at less
    exact (min_eq_left less).symm
  · rw [UInt64.le_iff_toNat_le] at less
    exact (min_eq_right (by omega)).symm

/-- The queue holds the items, of which the first is at position `first`, and behind them the
pending items, which are written but not yet published by the tail. -/
structure Represents (q : SpscQueue T) (first : Nat) (items pending : List T) : Prop where
  power : PowerOfTwo q.capacity
  slots : q.buffer.length = q.capacity.toNat
  room : items.length + pending.length < q.capacity.toNat
  head : q.head.toNat = first % q.capacity.toNat
  tail : q.tail.toNat = (first + items.length) % q.capacity.toNat
  holds : Holds q.buffer q.capacity.toNat first (items ++ pending)

namespace Represents

variable {q : SpscQueue T} {first : Nat} {items pending : List T} {x : T}

theorem head_lt (holds : q.Represents first items pending) : q.head.toNat < q.capacity.toNat := by
  rw [holds.head]
  exact Nat.mod_lt _ holds.power.pos

theorem tail_lt (holds : q.Represents first items pending) : q.tail.toNat < q.capacity.toNat := by
  rw [holds.tail]
  exact Nat.mod_lt _ holds.power.pos

theorem toNat_behind_tail (holds : q.Represents first items pending) (k : UInt64) :
    ((q.tail + k) &&& q.mask).toNat = (first + items.length + k.toNat) % q.capacity.toNat := by
  rw [mask, holds.power.toNat_add_and_mask, holds.tail, Nat.mod_add_mod]

theorem write (holds : q.Represents first items pending) {slot : Nat}
    (room : items.length + pending.length + 1 < q.capacity.toNat)
    (next : slot = (first + items.length + pending.length) % q.capacity.toNat) :
    ({ q with buffer := q.buffer.set slot x } : SpscQueue T).Represents first items
      (pending ++ [x]) := by
  refine ⟨holds.power, by simp [holds.slots], by simpa [Nat.add_assoc] using room, holds.head,
    holds.tail, ?_⟩
  rw [next, ← List.append_assoc]
  have written := holds.holds.write (x := x) holds.slots (by rw [List.length_append]; omega)
  rwa [List.length_append, ← Nat.add_assoc] at written

theorem publish (holds : q.Represents first items pending) {tail : UInt64}
    (next : tail.toNat = (first + items.length + pending.length) % q.capacity.toNat) :
    ({ q with tail } : SpscQueue T).Represents first (items ++ pending) [] := by
  refine ⟨holds.power, holds.slots, by simpa using holds.room, holds.head, ?_, ?_⟩
  · rw [List.length_append, ← Nat.add_assoc]
    exact next
  · rw [List.append_nil]
    exact holds.holds

/-- The tail is one slot behind the head exactly when a single slot is left. -/
theorem full_iff (holds : q.Represents first items pending) :
    (q.tail + 1) &&& q.mask = q.head ↔ items.length + 1 = q.capacity.toNat := by
  have room := holds.room
  rw [← UInt64.toNat_inj, holds.toNat_behind_tail, holds.head, UInt64.toNat_one, Nat.add_assoc]
  constructor
  · intro same
    by_contra short
    have apart := Kit.Ring.slot_ne (N := q.capacity.toNat) (a := first) (i := 0)
      (j := items.length + 1) (by omega) (by omega)
    exact apart same.symm
  · intro full
    rw [full, Nat.add_mod_right]

theorem empty_iff (holds : q.Represents first items pending) : q.head = q.tail ↔ items = [] := by
  have room := holds.room
  rw [← UInt64.toNat_inj, holds.head, holds.tail, ← List.length_eq_zero_iff]
  constructor
  · intro same
    by_contra some
    have apart := Kit.Ring.slot_ne (N := q.capacity.toNat) (a := first) (i := 0)
      (j := items.length) (by omega) (by omega)
    exact apart same
  · intro none
    rw [none, Nat.add_zero]

theorem read [Inhabited T] (holds : q.Represents first (x :: items) pending) :
    q.buffer.getD q.head.toNat default = x := by
  rw [holds.head, List.getD_eq_getElem?_getD, holds.holds.head, Option.getD_some]

theorem advance (holds : q.Represents first (x :: items) pending) :
    ({ q with head := (q.head + 1) &&& q.mask } : SpscQueue T).Represents (first + 1) items
      pending := by
  have room := holds.room
  rw [List.length_cons] at room
  refine ⟨holds.power, holds.slots, ?_, ?_, ?_, holds.holds.tail⟩
  · show items.length + pending.length < q.capacity.toNat
    omega
  · show ((q.head + 1) &&& q.mask).toNat = (first + 1) % q.capacity.toNat
    rw [mask, holds.power.toNat_add_and_mask, holds.head, Nat.mod_add_mod, UInt64.toNat_one]
  · show q.tail.toNat = (first + 1 + items.length) % q.capacity.toNat
    rw [holds.tail, List.length_cons, Nat.add_assoc, Nat.add_comm 1]

theorem toNat_approxSize (holds : q.Represents first items pending) :
    q.approxSize.toNat = items.length := by
  have room := holds.room
  have positive := holds.power.pos
  have start := Nat.mod_lt first positive
  have last : q.tail.toNat = (q.head.toNat + items.length) % q.capacity.toNat := by
    rw [holds.tail, holds.head, Nat.mod_add_mod]
  rw [← holds.head] at start
  unfold approxSize
  simp only
  rcases Nat.lt_or_ge (q.head.toNat + items.length) q.capacity.toNat with straight | wrapped
  · rw [Nat.mod_eq_of_lt straight] at last
    have order : q.head ≤ q.tail := UInt64.le_iff_toNat_le.mpr (by omega)
    rw [if_pos order, UInt64.toNat_sub_of_le _ _ order]
    omega
  · rw [Nat.mod_eq_sub_mod wrapped, Nat.mod_eq_of_lt (by omega)] at last
    have order : ¬ q.head ≤ q.tail := by
      rw [UInt64.le_iff_toNat_le]
      omega
    have back : (q.head - q.tail).toNat = q.head.toNat - q.tail.toNat :=
      UInt64.toNat_sub_of_le _ _ (UInt64.le_iff_toNat_le.mpr (by omega))
    rw [if_neg order, UInt64.toNat_sub_of_le, back]
    · omega
    · rw [UInt64.le_iff_toNat_le, back]
      omega

theorem content_eq [Inhabited T] (holds : q.Represents first items pending) :
    q.content = items := by
  have room := holds.room
  have wide := q.capacity.toNat_lt
  unfold content
  rw [holds.toNat_approxSize]
  apply List.ext_getElem (by rw [List.length_map, List.length_range])
  intro i _ inside
  have small : i < 2 ^ 64 := by omega
  have index : (UInt64.ofNat i).toNat = i := UInt64.toNat_ofNat_of_lt' small
  have slot := holds.holds i (by rw [List.length_append]; omega)
  rw [List.getElem?_append_left inside, List.getElem?_eq_getElem inside] at slot
  rw [List.getElem_map, List.getElem_range, mask, holds.power.toNat_add_and_mask, holds.head, index,
    Nat.mod_add_mod, List.getD_eq_getElem?_getD, slot, Option.getD_some]

theorem writeSlots {buffer : List T} (more : List T) (i : UInt64)
    (holds : ({ q with buffer } : SpscQueue T).Represents first items pending)
    (index : i.toNat = pending.length)
    (room : items.length + pending.length + more.length < q.capacity.toNat) :
    ({ q with buffer := SpscQueue.writeSlots q.mask q.tail more i buffer } : SpscQueue T).Represents
      first items (pending ++ more) := by
  induction more generalizing i buffer pending with
  | nil => simpa [SpscQueue.writeSlots] using holds
  | cons x more ih =>
    have bound := q.capacity.toNat_lt
    rw [List.length_cons] at room
    rw [SpscQueue.writeSlots, List.append_cons]
    have behind : ((q.tail + i) &&& q.mask).toNat =
        (first + items.length + pending.length) % q.capacity.toNat := by
      rw [← index]
      exact holds.toNat_behind_tail i
    have free : items.length + pending.length + 1 < q.capacity.toNat := by omega
    have step := holds.write (x := x) free behind
    have next : (i + 1).toNat = (pending ++ [x]).length := by
      rw [UInt64.toNat_add, UInt64.toNat_one, index, List.length_append, List.length_singleton]
      exact Nat.mod_eq_of_lt (by omega)
    apply ih (i + 1) step next
    rw [List.length_append, List.length_singleton]
    omega

end Represents

/-! ### Construction -/

/-- The loop ends, with the least power of two that is not below `cap`. -/
theorem doubleUntil_spec {cap : UInt64} (bound : cap.toNat ≤ 2 ^ 63) (fuel : Nat)
    {n : UInt64} {j : Nat} (now : n.toNat = 2 ^ j) (small : j ≤ 63) (enough : 64 ≤ fuel + j)
    (below : ∀ i, cap.toNat ≤ 2 ^ i → 2 ^ j ≤ 2 ^ i) :
    ∃ c, doubleUntil cap fuel n = some c ∧ PowerOfTwo c ∧ cap.toNat ≤ c.toNat ∧
      ∀ i, cap.toNat ≤ 2 ^ i → c.toNat ≤ 2 ^ i := by
  induction fuel generalizing n j with
  | zero => omega
  | succ fuel ih =>
    unfold doubleUntil
    split_ifs with more
    · rw [UInt64.lt_iff_toNat_lt, now] at more
      have room : j < 63 := (Nat.pow_lt_pow_iff_right (by decide)).mp (more.trans_le bound)
      have doubled : (n <<< 1).toNat = 2 ^ (j + 1) := by
        rw [UInt64.toNat_shiftLeft, now, UInt64.toNat_one, Nat.shiftLeft_eq, ← Nat.pow_succ]
        exact Nat.mod_eq_of_lt (Nat.pow_lt_pow_right (by decide) (by omega))
      refine ih doubled (by omega) (by omega) fun i above => ?_
      have : j < i := (Nat.pow_lt_pow_iff_right (by decide)).mp (more.trans_le above)
      exact Nat.pow_le_pow_right (by decide) this
    · rw [UInt64.lt_iff_toNat_lt] at more
      refine ⟨n, rfl, ⟨j, by omega, now⟩, by omega, fun i above => ?_⟩
      rw [now]
      exact below i above

/-- For a capacity up to 2^63 the constructor ends, with the least power of two that is at least the
requested capacity and 2, and with no item. -/
theorem new_represents [Inhabited T] {fuel : Nat} (enough : 64 ≤ fuel) {requested : UInt64}
    (bound : requested.toNat ≤ 2 ^ 63) :
    ∃ q, new T fuel requested = some q ∧
      IsLeast {N | ∃ k, N = 2 ^ k ∧ max requested.toNat 2 ≤ N} q.capacity.toNat ∧
      q.Represents 0 [] [] := by
  have cap : (if requested < 2 then 2 else requested).toNat = max requested.toNat 2 := by
    split_ifs with few
    · rw [UInt64.lt_iff_toNat_lt] at few
      exact (max_eq_right (Nat.le_of_lt few)).symm
    · rw [UInt64.lt_iff_toNat_lt] at few
      exact (max_eq_left (Nat.le_of_not_lt few)).symm
  have small : (if requested < 2 then 2 else requested).toNat ≤ 2 ^ 63 := by
    rw [cap]
    omega
  obtain ⟨c, ended, power, above, least⟩ := doubleUntil_spec small fuel (n := 1) (j := 0) rfl
    (by omega) (by omega) fun i _ => Nat.one_le_two_pow
  rw [cap] at above
  refine ⟨_, by rw [new, normalizeCapacity, ended]; rfl, ⟨?_, ?_⟩, ?_⟩
  · obtain ⟨k, -, hk⟩ := power
    exact ⟨k, hk, above⟩
  · rintro _ ⟨k, rfl, above⟩
    exact least k (by rwa [cap])
  · refine ⟨power, by simp, power.pos, ?_, ?_, Kit.Ring.holds_nil _ _ _⟩ <;> simp

end SpscQueue

end EtradePipeline
