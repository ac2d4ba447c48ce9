import EtradePipeline.Queue.SpscQueue
import EtradePipeline.Kit.Transcript

/-! The queue refines a bounded list: over every run of calls, each taken whole, it answers as the
list does that pushes append to and pops take from. -/

namespace EtradePipeline

open Kit.Transcript (transcript transcript_simulates transcript_cons)

/-! ### Calls -/

inductive QueueCall (T : Type) where
  | push (item : T)
  | pushBulk (batch : Batch T)
  | pop
  | empty
  | approxSize

inductive QueueAnswer (T : Type) where
  | accepted (done : Bool)
  | pushed (n : Nat)
  | popped (item : Option T)
  | isEmpty (none : Bool)
  | size (n : Nat)
  deriving DecidableEq

/-- A call of the queue as the code runs it. -/
def SpscQueue.call {T : Type} [Inhabited T] (q : SpscQueue T) :
    QueueCall T → QueueAnswer T × SpscQueue T
  | .push item => ((.accepted (q.push item).1), (q.push item).2)
  | .pushBulk batch => (.pushed (q.pushBulk batch).1.toNat, (q.pushBulk batch).2)
  | .pop => (.popped q.pop.1, q.pop.2)
  | .empty => (.isEmpty q.empty, q)
  | .approxSize => (.size q.approxSize.toNat, q)

/-- A call of a list that has room for `most` items. -/
def fifoCall {T : Type} (most : Nat) (items : List T) : QueueCall T → QueueAnswer T × List T
  | .push item =>
    if items.length < most then (.accepted true, items ++ [item]) else (.accepted false, items)
  | .pushBulk batch =>
    let k := min batch.items.length (most - items.length)
    (.pushed k, items ++ batch.items.take k)
  | .pop =>
    match items with
    | [] => (.popped none, [])
    | item :: rest => (.popped (some item), rest)
  | .empty => (.isEmpty items.isEmpty, items)
  | .approxSize => (.size items.length, items)

/-- Single pushes of the items in turn, stopped at the first that fails: how many succeeded, and the
queue after them. -/
def SpscQueue.pushEach {T : Type} (q : SpscQueue T) : List T → Nat × SpscQueue T
  | [] => (0, q)
  | item :: items =>
    match q.push item with
    | (true, q) => ((pushEach q items).1 + 1, (pushEach q items).2)
    | (false, q) => (0, q)

variable {T : Type}

/-- The items that the calls of a transcript have added. -/
def acceptedItems : List (QueueCall T × QueueAnswer T) → List T
  | (.push item, .accepted true) :: rest => item :: acceptedItems rest
  | (.pushBulk batch, .pushed k) :: rest => batch.items.take k ++ acceptedItems rest
  | _ :: rest => acceptedItems rest
  | [] => []

/-- The items that the pops of a transcript have handed out. -/
def poppedItems : List (QueueCall T × QueueAnswer T) → List T
  | (.pop, .popped (some item)) :: rest => item :: poppedItems rest
  | _ :: rest => poppedItems rest
  | [] => []

/-- In a bounded list, what was added is what was handed out and what is left, in order. -/
theorem fifo_accounts (most : Nat) (calls : List (QueueCall T)) (items : List T) :
    items ++ acceptedItems (transcript (fifoCall most) items calls).1 =
      poppedItems (transcript (fifoCall most) items calls).1 ++
        (transcript (fifoCall most) items calls).2 := by
  induction calls generalizing items with
  | nil => simp [acceptedItems, poppedItems]
  | cons call calls ih =>
    rw [transcript_cons]
    cases call with
    | push item =>
      simp only [fifoCall]
      split_ifs
      · have := ih (items ++ [item])
        rwa [List.append_assoc] at this
      · exact ih items
    | pushBulk batch =>
      have := ih (items ++ batch.items.take (min batch.items.length (most - items.length)))
      rwa [List.append_assoc] at this
    | pop =>
      cases items with
      | nil => exact ih []
      | cons item rest => simpa [acceptedItems, poppedItems, fifoCall] using ih rest
    | empty | approxSize => exact ih items

/-! ### Each call -/

namespace SpscQueue

open QueueAnswer

variable {q : SpscQueue T} {first : Nat} {items : List T}

theorem push_accepts (holds : q.Represents first items []) (x : T)
    (room : items.length + 1 < q.capacity.toNat) :
    (q.push x).1 = true ∧ (q.push x).2.capacity = q.capacity ∧
      (q.push x).2.Represents first (items ++ [x]) [] := by
  have free : ¬ (q.tail + 1) &&& q.mask = q.head := by
    rw [holds.full_iff]
    omega
  simp only [push, if_neg free, true_and]
  have slot : q.tail.toNat = (first + items.length + ([] : List T).length) % q.capacity.toNat :=
    holds.tail
  have written := holds.write (x := x) room slot
  apply written.publish
  show ((q.tail + 1) &&& q.mask).toNat = _
  rw [holds.toNat_behind_tail]
  rfl

theorem push_refuses (holds : q.Represents first items []) (x : T)
    (full : ¬ items.length + 1 < q.capacity.toNat) : q.push x = (false, q) := by
  have room := holds.room
  simp only [List.length_nil] at room
  have behind : (q.tail + 1) &&& q.mask = q.head := holds.full_iff.mpr (by omega)
  simp [push, behind]

theorem pushBulk_appends (holds : q.Represents first items []) (batch : Batch T) :
    let k := min batch.items.length (q.capacity.toNat - 1 - items.length)
    (q.pushBulk batch).1.toNat = k ∧ (q.pushBulk batch).2.capacity = q.capacity ∧
      (q.pushBulk batch).2.Represents first (items ++ batch.items.take k) [] := by
  intro k
  have room := holds.room
  simp only [List.length_nil, Nat.add_zero] at room
  have free := toNat_freeSlots holds.power room holds.head holds.tail
  have count : batch.n.toNat = batch.items.length := UInt64.toNat_ofNat_of_lt' batch.fits
  unfold pushBulk
  simp only
  split_ifs with none full
  · have : k = 0 := by
      have := congrArg UInt64.toNat none
      rw [count] at this
      simp [k, this]
    simpa [this] using holds
  · have : k = 0 := by
      have := congrArg UInt64.toNat full
      rw [free] at this
      simp only [UInt64.toNat_zero] at this
      simp [k, this]
    simpa [this] using holds
  · have taken : (toPush batch.n (q.freeSlots q.head q.tail)).toNat = k := by
      rw [toNat_toPush, count, free]
    simp only [taken, true_and]
    have fits : items.length + ([] : List T).length + (batch.items.take k).length <
        q.capacity.toNat := by
      rw [List.length_nil, List.length_take]
      omega
    have written := Represents.writeSlots (batch.items.take k) 0 holds rfl fits
    apply written.publish
    show ((q.tail + _) &&& q.mask).toNat = _
    rw [holds.toNat_behind_tail, taken, List.nil_append, List.length_take]
    congr 2
    omega

theorem pop_takes [Inhabited T] (holds : q.Represents first items []) :
    q.pop.1 = items.head? ∧ q.pop.2.capacity = q.capacity ∧
      ∃ first', q.pop.2.Represents first' items.tail [] := by
  unfold pop
  cases items with
  | nil =>
    simp only [holds.empty_iff.mpr rfl, if_true, List.head?_nil, List.tail_nil, true_and]
    exact ⟨first, holds⟩
  | cons x items =>
    have some : ¬ q.head = q.tail := by simp [holds.empty_iff]
    simp only [some, if_false, holds.read, List.head?_cons, List.tail_cons, true_and]
    exact ⟨first + 1, holds.advance⟩

/-- A queue of `N` slots that holds the items. -/
def Refines (N : Nat) (q : SpscQueue T) (items : List T) : Prop :=
  q.capacity.toNat = N ∧ ∃ first, q.Represents first items []

/-- The step: a call answers as the list does, and leaves the queue with the items of the list. -/
theorem call_refines [Inhabited T] {N : Nat} (refines : Refines N q items) (call : QueueCall T) :
    (q.call call).1 = (fifoCall (N - 1) items call).1 ∧
      Refines N (q.call call).2 (fifoCall (N - 1) items call).2 := by
  obtain ⟨rfl, first, holds⟩ := refines
  have room := holds.room
  simp only [List.length_nil, Nat.add_zero] at room
  cases call with
  | push x =>
    simp only [SpscQueue.call, fifoCall]
    split_ifs with less
    · obtain ⟨done, same, holds'⟩ := push_accepts holds x (by omega)
      rw [done]
      exact ⟨rfl, by rw [same], first, holds'⟩
    · rw [push_refuses holds x (by omega)]
      exact ⟨rfl, rfl, first, holds⟩
  | pushBulk batch =>
    obtain ⟨count, same, holds'⟩ := pushBulk_appends holds batch
    exact ⟨by simp only [SpscQueue.call, fifoCall, count], by rw [SpscQueue.call, same],
      first, holds'⟩
  | pop =>
    obtain ⟨item, same, holds'⟩ := pop_takes holds
    simp only [SpscQueue.call, item]
    cases items with
    | nil => exact ⟨rfl, by rw [same], holds'⟩
    | cons x items => exact ⟨rfl, by rw [same], holds'⟩
  | empty =>
    refine ⟨?_, rfl, first, holds⟩
    simp only [SpscQueue.call, SpscQueue.empty, fifoCall, isEmpty.injEq, holds.empty_iff]
    cases items <;> rfl
  | approxSize =>
    refine ⟨?_, rfl, first, holds⟩
    simp only [SpscQueue.call, fifoCall, holds.toNat_approxSize]

/-- The run. -/
theorem transcript_refines [Inhabited T] {N : Nat} (refines : Refines N q items)
    (calls : List (QueueCall T)) :
    (transcript call q calls).1 = (transcript (fifoCall (N - 1)) items calls).1 ∧
      Refines N (transcript call q calls).2 (transcript (fifoCall (N - 1)) items calls).2 :=
  transcript_simulates (fun _ _ c refines => call_refines refines c) refines calls

theorem pushEach_appends (holds : q.Represents first items []) (xs : List T) :
    let k := min xs.length (q.capacity.toNat - 1 - items.length)
    (q.pushEach xs).1 = k ∧ (q.pushEach xs).2.capacity = q.capacity ∧
      (q.pushEach xs).2.Represents first (items ++ xs.take k) [] := by
  induction xs generalizing q items with
  | nil => simpa [pushEach] using holds
  | cons x xs ih =>
    intro k
    have least : k = min (xs.length + 1) (q.capacity.toNat - 1 - items.length) := rfl
    by_cases room : items.length + 1 < q.capacity.toNat
    · obtain ⟨done, same, holds'⟩ := push_accepts holds x room
      obtain ⟨count, same', holds''⟩ := ih holds'
      rw [same, List.length_append, List.length_singleton] at count holds''
      have more : k = min xs.length (q.capacity.toNat - 1 - (items.length + 1)) + 1 := by
        omega
      have pushed : q.push x = (true, (q.push x).2) := Prod.ext done rfl
      rw [pushEach, pushed]
      refine ⟨?_, same'.trans same, ?_⟩
      · rw [more]
        simp only [count]
      · rw [more, List.take_succ_cons]
        simpa [List.append_assoc] using holds''
    · have none : k = 0 := by omega
      rw [pushEach, push_refuses holds x room, none, List.take_zero, List.append_nil]
      exact ⟨rfl, rfl, holds⟩

/-- A bulk push has the effect of single pushes: the same count, and the same answers to whatever is
called after it. -/
theorem pushBulk_as_pushEach [Inhabited T] {N : Nat} (refines : Refines N q items) (batch : Batch T)
    (later : List (QueueCall T)) :
    (q.pushBulk batch).1.toNat = (q.pushEach batch.items).1 ∧
      (transcript call (q.pushBulk batch).2 later).1 =
        (transcript call (q.pushEach batch.items).2 later).1 := by
  obtain ⟨rfl, first, holds⟩ := refines
  obtain ⟨bulk, sameBulk, holdsBulk⟩ := pushBulk_appends holds batch
  obtain ⟨each, sameEach, holdsEach⟩ := pushEach_appends holds batch.items
  refine ⟨bulk.trans each.symm, ?_⟩
  rw [(transcript_refines ⟨congrArg UInt64.toNat sameBulk, first, holdsBulk⟩ later).1,
    (transcript_refines ⟨congrArg UInt64.toNat sameEach, first, holdsEach⟩ later).1]

end SpscQueue

open SpscQueue

/-- A new queue of any capacity up to 2^63 is a list with room for one item less than its number of
slots: it answers every run of calls as the list does, what was added is what was handed out and
what it holds, in order, and a bulk push is as good as single pushes. -/
theorem queue_refines_fifo (T : Type) [Inhabited T] (fuel : Nat) (enough : 64 ≤ fuel)
    (requested : UInt64) (bound : requested.toNat ≤ 2 ^ 63) (calls : List (QueueCall T)) :
    ∃ (q : SpscQueue T) (N : Nat), new T fuel requested = some q ∧
      IsLeast {N | ∃ k, N = 2 ^ k ∧ max requested.toNat 2 ≤ N} N ∧
      let run := transcript call q calls
      let list := transcript (fifoCall (N - 1)) [] calls
      run.1 = list.1 ∧ list.2.length ≤ N - 1 ∧
        acceptedItems run.1 = poppedItems run.1 ++ list.2 ∧
        ∀ (batch : Batch T) (later : List (QueueCall T)),
          (run.2.pushBulk batch).1.toNat = (run.2.pushEach batch.items).1 ∧
          (transcript call (run.2.pushBulk batch).2 later).1 =
            (transcript call (run.2.pushEach batch.items).2 later).1 := by
  obtain ⟨q, built, least, holds⟩ := new_represents (T := T) enough bound
  have start : Refines q.capacity.toNat q [] := ⟨rfl, 0, holds⟩
  obtain ⟨answers, final⟩ := transcript_refines start calls
  refine ⟨q, q.capacity.toNat, built, least, answers, ?_, ?_, pushBulk_as_pushEach final⟩
  · obtain ⟨same, first, holds⟩ := final
    have := holds.room
    rw [same] at this
    omega
  · have accounts := fifo_accounts (q.capacity.toNat - 1) calls []
    rwa [List.nil_append, ← answers] at accounts

/-- A queue of four slots, filled past its end by a bulk push. -/
theorem queue_refines_fifo_over_wrap :
    ∃ q : SpscQueue Nat, new Nat 64 3 = some q ∧
      (transcript call q
          [.push 1, .pop, .pushBulk ⟨[2, 3, 4, 5], by decide⟩, .pop]).1.map Prod.snd =
        [.accepted true, .popped (some 1), .pushed 3, .popped (some 2)] := by
  obtain ⟨q, N, built, ⟨⟨k, power, above⟩, least⟩, answers, -⟩ :=
    queue_refines_fifo Nat 64 (by decide) 3 (by decide)
      [.push 1, .pop, .pushBulk ⟨[2, 3, 4, 5], by decide⟩, .pop]
  have four : N = 4 := by
    have most : N ≤ 4 := least ⟨2, rfl, by decide⟩
    have above : 3 ≤ N := above
    rcases k with _ | _ | k
    · omega
    · omega
    · have := Nat.one_le_two_pow (n := k)
      omega
  subst four
  exact ⟨q, built, by rw [answers]; decide⟩

end EtradePipeline
