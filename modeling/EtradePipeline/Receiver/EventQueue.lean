import EtradePipeline.Book.Event
import EtradePipeline.Queue.SpscQueue

/-! The queue of events between the receiver and the consumer. -/

namespace EtradePipeline

def queueCapacity : UInt64 := 65536

theorem new_eventQueue :
    ∃ q, SpscQueue.new Event 64 queueCapacity = some q ∧ 2 ≤ q.capacity.toNat ∧
      q.Represents 0 [] [] ∧ q.shutdown = false := by
  have bound : queueCapacity.toNat ≤ 2 ^ 63 := by decide
  obtain ⟨q, built, ⟨⟨k, -, above⟩, -⟩, holds⟩ :=
    SpscQueue.new_represents (T := Event) (le_refl 64) bound
  refine ⟨q, built, le_trans (le_max_right _ _) above, holds, ?_⟩
  obtain ⟨capacity, -, rfl⟩ := Option.map_eq_some_iff.mp built
  rfl

end EtradePipeline
