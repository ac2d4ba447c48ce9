import EtradePipeline.Queue.Accesses

/-! The accesses of a call that nothing interrupts have the effect of the whole call. -/

namespace EtradePipeline.Machine

open Kit.Transition

variable {T : Type} [Inhabited T]

/-- What the last push or bulk push returned. -/
def lastPushed (m : Machine T) : Option Nat := m.results.head?.map PushResult.pushed

theorem push_alone (m : Machine T) (idle : m.producer = .idle) (item : T) :
    ∃ k m', run step m (.push item :: List.replicate k .produce) = some m' ∧
      m'.producer = .idle ∧ m'.queue = (m.queue.push item).2 ∧
      m'.lastPushed = some (m.queue.push item).1.toNat := by
  by_cases full : (m.queue.tail + 1) &&& m.queue.mask = m.queue.head
  · refine ⟨1, m.seeHead.finish 1 0, ?_, rfl, ?_, ?_⟩
    · simp [run, step, idle, produce, full, seeHead, finish, room, unread]
    · simp [SpscQueue.push, full, finish, seeHead]
    · simp [SpscQueue.push, full, lastPushed, finish]
  · refine ⟨3, ((m.seeHead.write m.queue.tail item).publish
      ((m.queue.tail + 1) &&& m.queue.mask)).finish 1 1, ?_, rfl, ?_, ?_⟩
    · simp [run, step, idle, produce, full, List.replicate, seeHead, write, publish, finish, room,
        unread]
    · simp [SpscQueue.push, full, finish, publish, write, seeHead]
    · simp [SpscQueue.push, full, lastPushed, finish]

theorem pop_alone (m : Machine T) (idle : m.consumer = .idle) :
    ∃ k m', run step m (.pop :: List.replicate k .consume) = some m' ∧ m'.consumer = .idle ∧
      m'.queue = m.queue.pop.2 ∧ m'.popped = m.popped ++ m.queue.pop.1.toList := by
  by_cases empty : m.queue.head = m.queue.tail
  · refine ⟨1, { m with consumer := .idle }, ?_, rfl, ?_, ?_⟩
    · simp [run, step, idle, consume, empty]
    · simp [SpscQueue.pop, empty]
    · simp [SpscQueue.pop, empty]
  · refine ⟨3, { m with
      queue.head := (m.queue.head + 1) &&& m.queue.mask
      popped := m.popped ++ [m.queue.buffer.getD m.queue.head.toNat default]
      consumer := .idle }, ?_, rfl, ?_, ?_⟩
    · simp [run, step, idle, consume, empty, List.replicate]
    · simp [SpscQueue.pop, empty]
    · simp [SpscQueue.pop, empty]

theorem writes_alone {batch : Batch T} {tail toPush : UInt64}
    (within : toPush.toNat ≤ batch.items.length) (left : Nat) (m : Machine T) {i : UInt64}
    (at_ : m.producer = .writeBatch batch tail toPush i) (count : i.toNat + left = toPush.toNat) :
    ∃ m', run step m (List.replicate left .produce) = some m' ∧
      m'.producer = .writeBatch batch tail toPush toPush ∧
      m'.queue = { m.queue with
        buffer := SpscQueue.writeSlots m.queue.mask tail
          ((batch.items.take toPush.toNat).drop i.toNat) i m.queue.buffer } := by
  induction left generalizing m i with
  | zero =>
    have done : i = toPush := UInt64.toNat_inj.mp count
    subst done
    refine ⟨m, rfl, at_, ?_⟩
    rw [List.drop_of_length_le (List.length_take_le _ _)]
    rfl
  | succ left ih =>
    have more : i < toPush := UInt64.lt_iff_toNat_lt.mpr (by omega)
    have inside : i.toNat < batch.items.length := by omega
    let m' : Machine T := { m.write ((tail + i) &&& m.queue.mask) batch.items[i.toNat] with
      producer := .writeBatch batch tail toPush (i + 1) }
    have stepped : step m .produce = some m' := by
      simp [step, produce, at_, more, inside, m']
    have next := SpscQueue.toNat_add_one (UInt64.lt_iff_toNat_lt.mp more)
    obtain ⟨m'', ran, there, queue⟩ := ih m' rfl (by omega)
    refine ⟨m'', ?_, there, ?_⟩
    · rw [List.replicate_succ, run_cons, stepped]
      exact ran
    · have first : (batch.items.take toPush.toNat).drop i.toNat =
          batch.items[i.toNat] :: (batch.items.take toPush.toNat).drop (i.toNat + 1) := by
        rw [List.drop_eq_getElem_cons (by rw [List.length_take]; omega), List.getElem_take]
      rw [queue, next, first, SpscQueue.writeSlots]
      rfl

theorem pushBulk_alone (m : Machine T) (idle : m.producer = .idle) (batch : Batch T) :
    ∃ k m', run step m (.pushBulk batch :: List.replicate k .produce) = some m' ∧
      m'.producer = .idle ∧ m'.queue = (m.queue.pushBulk batch).2 ∧
      m'.lastPushed = some (m.queue.pushBulk batch).1.toNat := by
  by_cases none : batch.n = 0
  · refine ⟨0, m.seeHead.finish 0 0, by simp [run, step, idle, none], rfl, ?_, ?_⟩
    · simp [SpscQueue.pushBulk, none, finish, seeHead]
    · simp [SpscQueue.pushBulk, none, lastPushed, finish]
  by_cases full : m.queue.freeSlots m.queue.head m.queue.tail = 0
  · refine ⟨1, m.seeHead.finish batch.n.toNat 0, ?_, rfl, ?_, ?_⟩
    · simp [run, step, idle, none, produce, full, seeHead, finish, room, unread]
    · simp [SpscQueue.pushBulk, none, full, finish, seeHead]
    · simp [SpscQueue.pushBulk, none, full, lastPushed, finish]
  · let toPush := SpscQueue.toPush batch.n (m.queue.freeSlots m.queue.head m.queue.tail)
    have within : toPush.toNat ≤ batch.items.length := by
      have count : batch.n.toNat = batch.items.length := UInt64.toNat_ofNat_of_lt' batch.fits
      rw [SpscQueue.toNat_toPush, count]
      exact min_le_left _ _
    let writing : Machine T := { m.seeHead with
      producer := .writeBatch batch m.queue.tail toPush 0 }
    obtain ⟨m', ran, there, queue⟩ := writes_alone within toPush.toNat writing (i := 0) rfl
      (Nat.zero_add _)
    refine ⟨1 + (toPush.toNat + 1), (m'.publish ((m.queue.tail + toPush) &&& m.queue.mask)).finish
      batch.n.toNat toPush.toNat, ?_, rfl, ?_, ?_⟩
    · have loaded : step m (.pushBulk batch) =
          some { m.seeHead with producer := .loadTail batch m.queue.head } := by
        simp [step, idle, none]
      have entered : step { m.seeHead with producer := .loadTail batch m.queue.head } .produce =
          some writing := by
        simp [step, produce, full, seeHead, writing, toPush]
      have stored : step m' .produce =
          some ((m'.publish ((m.queue.tail + toPush) &&& m.queue.mask)).finish
            batch.n.toNat toPush.toNat) := by
        simp [step, produce, there, queue, writing, seeHead, SpscQueue.mask]
      rw [Nat.add_comm 1, List.replicate_succ, List.replicate_succ', run_cons, loaded,
        Option.bind_some, run_cons, entered, Option.bind_some, run_append, ran, Option.bind_some,
        run_cons, stored]
      rfl
    · simp [SpscQueue.pushBulk, none, full, finish, publish, queue, writing, seeHead, toPush]
    · simp [SpscQueue.pushBulk, none, full, lastPushed, finish, toPush]

end EtradePipeline.Machine
