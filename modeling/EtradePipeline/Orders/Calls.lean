import EtradePipeline.Orders.OrderManager

/-! What each section of the order manager does to the entries, the book and the policy, and what
the calls do that run their sections without interruption. -/

namespace EtradePipeline

namespace State

@[simp] theorem afterMatch_nil (st : State) : st.afterMatch [] = { st with status := .OPEN } := rfl

theorem afterMatch_status_ne_canceled (st : State) (fills : List Fill) :
    (st.afterMatch fills).status ≠ .CANCELED := by
  unfold afterMatch
  split_ifs <;> simp

theorem afterMatch_remaining_nonneg {st : State} (nonneg : 0 ≤ st.remaining) (fills : List Fill) :
    0 ≤ (st.afterMatch fills).remaining := by
  unfold afterMatch
  split_ifs with none ended
  · exact nonneg
  · exact le_refl 0
  · show 0 ≤ st.remaining - fillTotal fills
    omega

end State

namespace OrderManager

variable {m : OrderManager} {ord : Order} {clid id : Bytes} {fills : List Fill}

@[simp] theorem setOpenOrders_orders : m.setOpenOrders.orders = m.orders := rfl
@[simp] theorem setOpenOrders_ob : m.setOpenOrders.ob = m.ob := rfl
@[simp] theorem setOpenOrders_policy : m.setOpenOrders.policy = m.policy := rfl
@[simp] theorem countRejected_orders : m.countRejected.orders = m.orders := rfl
@[simp] theorem countRejected_ob : m.countRejected.ob = m.ob := rfl
@[simp] theorem countRejected_policy : m.countRejected.policy = m.policy := rfl
@[simp] theorem reportMetrics_orders : (m.reportMetrics fills).orders = m.orders := rfl
@[simp] theorem reportMetrics_ob : (m.reportMetrics fills).ob = m.ob := rfl
@[simp] theorem reportMetrics_policy : (m.reportMetrics fills).policy = m.policy := rfl
@[simp] theorem insertNew_ob : (m.insertNew ord).ob = m.ob := rfl
@[simp] theorem insertNew_policy : (m.insertNew ord).policy = m.policy := rfl
@[simp] theorem updateStatus_ob : (m.updateStatus clid fills).ob = m.ob := rfl
@[simp] theorem updateStatus_policy : (m.updateStatus clid fills).policy = m.policy := rfl
@[simp] theorem feed_orders (ev : Event) : (m.feed ev).orders = m.orders := rfl
@[simp] theorem feed_policy (ev : Event) : (m.feed ev).policy = m.policy := rfl

@[simp] theorem matchBook_orders : (m.matchBook ord).2.orders = m.orders := by
  simp only [matchBook]; split <;> rfl

@[simp] theorem matchBook_policy : (m.matchBook ord).2.policy = m.policy := by
  simp only [matchBook]; split <;> rfl

theorem matchBook_fills (m : OrderManager) (ord : Order) :
    (∀ f ∈ (m.matchBook ord).1, 0 < f.size) ∧ fillTotal (m.matchBook ord).1 ≤ max ord.size 0 := by
  unfold matchBook
  split
  · exact ⟨by simp, le_max_right _ _⟩
  · rename_i ob _
    exact ⟨fun f hf => (ob.matchOrder_fill ord f hf).1, ob.matchOrder_total ord⟩

theorem insertNew_lookup : (m.insertNew ord).orders.lookup id =
    if id = ord.clid then some ((m.orders.lookup ord.clid).getD (newState ord))
    else m.orders.lookup id := by
  simp only [insertNew, setOpenOrders_orders]
  split_ifs with same
  · subst same
    split
    · rename_i found; simp [found]
    · rename_i missing; simp [missing]
  · split
    · rfl
    · exact AList.lookup_insert_ne same

theorem updateStatus_lookup : (m.updateStatus clid fills).orders.lookup id =
    if id = clid then (m.orders.lookup clid).map fun st => st.afterMatch fills
    else m.orders.lookup id := by
  simp only [updateStatus, setOpenOrders_orders]
  split_ifs with same
  · subst same
    split
    · rename_i found; simp [found]
    · rename_i missing; simp [missing]
  · split
    · exact AList.lookup_insert_ne same
    · rfl

/-- A cancel either refuses and changes nothing, or closes a live entry and reports what remained
of it. -/
theorem cancelOrder_cases (m : OrderManager) (clid : Bytes) :
    ((m.orders.lookup clid).all (fun st => st.status.isTerminal) = true ∧
      m.cancelOrder clid = (none, m)) ∨
    ∃ st, m.orders.lookup clid = some st ∧ st.status.isTerminal = false ∧
      (m.cancelOrder clid).1 = some st.remaining ∧
      (m.cancelOrder clid).2.ob = m.ob ∧ (m.cancelOrder clid).2.policy = m.policy ∧
      (m.cancelOrder clid).2.orders =
        m.orders.insert clid { st with remaining := 0, status := .CANCELED } := by
  simp only [cancelOrder]
  cases found : m.orders.lookup clid with
  | none => exact .inl ⟨rfl, rfl⟩
  | some st =>
    cases closed : st.status.isTerminal with
    | true => exact .inl ⟨by simp [closed], by simp [closed]⟩
    | false =>
      right
      refine ⟨st, rfl, closed, ?_⟩
      simp [closed]

/-- An order passes the checks exactly when there is no reason to reject it. -/
theorem checkOrder_eq_none : m.checkOrder ord = none ↔
    0 < ord.size ∧
    (0 < m.policy.maxOrderSize → ord.size ≤ m.policy.maxOrderSize.toInt64.toInt) ∧
    (0 < m.policy.maxOpenOrders → m.openOrderCount < m.policy.maxOpenOrders.toNat) ∧
    m.ob.isSome = true := by
  simp only [checkOrder]
  split_ifs with size limit full book
  · simp [size]
  · simp [not_le.mpr limit.2, limit.1]
  · simp [not_lt.mpr full.2, full.1]
  · simp_all
  · simp only [not_and, not_lt, not_le] at *
    simp only [true_iff]
    exact ⟨size, limit, full, by simpa [Option.isSome_iff_ne_none] using book⟩

/-- A submission that runs alone is either rejected, with no fill and no change but to the rejected
counter, or accepted: it trades against the book and leaves its result in the entry of its id. -/
theorem submitOrder_cases (m : OrderManager) (ord : Order) :
    (∃ reason, m.checkOrder ord = some reason ∧
      m.submitOrder ord = (⟨false, reason, []⟩, m.countRejected)) ∨
    ∃ ob, m.checkOrder ord = none ∧ m.ob = some ob ∧ 0 < ord.size ∧
      (m.submitOrder ord).1 = ⟨true, [], (ob.matchOrder ord).1⟩ ∧
      (m.submitOrder ord).2.ob = some (ob.matchOrder ord).2 ∧
      (m.submitOrder ord).2.policy = m.policy ∧
      ∀ id, (m.submitOrder ord).2.orders.lookup id =
        if id = ord.clid then
          some (((m.orders.lookup ord.clid).getD (newState ord)).afterMatch (ob.matchOrder ord).1)
        else m.orders.lookup id := by
  cases checked : m.checkOrder ord with
  | some reason => exact .inl ⟨reason, rfl, by simp [submitOrder, checked]⟩
  | none =>
    obtain ⟨asked, -, -, attached⟩ := checkOrder_eq_none.mp checked
    obtain ⟨ob, hob⟩ := Option.isSome_iff_exists.mp attached
    have matched : (m.insertNew ord).matchBook ord =
        ((ob.matchOrder ord).1, { m.insertNew ord with ob := some (ob.matchOrder ord).2 }) := by
      simp [matchBook, hob]
    right
    refine ⟨ob, rfl, hob, asked, ?_⟩
    simp only [submitOrder, checked, matched, reportMetrics_ob, reportMetrics_policy,
      reportMetrics_orders, updateStatus_ob, updateStatus_policy, insertNew_policy, true_and]
    intro id
    rw [updateStatus_lookup]
    split_ifs with same
    · rw [insertNew_lookup, if_pos rfl, Option.map_some]
    · rw [insertNew_lookup, if_neg same]

end OrderManager

end EtradePipeline
