import EtradePipeline.Orders.Sections

/-! The order metrics, with calls that interleave.  Each locked section that changes the status of
an entry recounts the gauge, so the gauge is right whenever no section runs.  The counters are added
to at the end of a call, so they are right once every call has returned. -/

namespace EtradePipeline

open Kit.Transition
open Kit.KeyedList (countIf countIf_congr)

/-- The number of entries that are `NEW`, `OPEN` or `PARTIAL`. -/
def OrderManager.liveCount (m : OrderManager) : Nat := countIf (fun st => st.status.isLive) m.orders

namespace Stage

/-- The call has inserted its entry and has not yet written a status to it. -/
def waiting : Stage → Bool
  | .inserted | .matched _ => true
  | _ => false

def isRejected : Stage → Bool
  | .rejected _ => true
  | _ => false

def isReturned : Stage → Bool
  | .returned _ => true
  | _ => false

/-- The fills that a call has returned. -/
def returnedFills : Stage → List Fill
  | .returned fills => fills
  | _ => []

theorem counted_once (s : Stage) : (if s.result.isSome = true then 1 else 0) =
    (if s.isReturned = true then 1 else 0) + (if s.isRejected = true then 1 else 0) := by
  cases s <;> rfl

end Stage

namespace Pool

/-- Every call of `submit_order` has returned. -/
def Idle (p : Pool) : Prop := ∀ c ∈ p.submits, c.stage.result.isSome = true

/-- The number of calls of `submit_order` that have returned. -/
def completed (p : Pool) : Nat := p.submits.countP fun c => c.stage.result.isSome

/-- The fills that calls of `submit_order` have returned. -/
def returnedFills (p : Pool) : List Fill := p.submits.flatMap fun c => c.stage.returnedFills

/-- The metrics agree with the entries and with what the calls have returned. -/
structure Reconciled (p : Pool) : Prop where
  gauge : p.manager.metrics.openOrders = UInt64.ofNat p.manager.liveCount
  settled : p.Idle → ∀ id st, p.entry id = some st → st.status ≠ .NEW
  open_ : p.Idle → p.manager.metrics.openOrders = UInt64.ofNat p.manager.openOrderCount
  submits : p.Idle → p.manager.metrics.orderAccepted + p.manager.metrics.orderRejected =
    UInt64.ofNat p.completed
  fills : p.Idle → p.manager.metrics.ordersFilledCount = UInt64.ofNat p.returnedFills.length
  volume : p.Idle → p.manager.metrics.filledVolume = UInt64.ofInt (fillTotal p.returnedFills)
  cancels : p.Idle → p.manager.metrics.ordersCanceled = UInt64.ofNat p.canceled.length

/-- The counters hold what the calls have returned so far. -/
structure Counted (p : Pool) : Prop where
  accepted : p.manager.metrics.orderAccepted =
    UInt64.ofNat (p.submits.countP fun c => c.stage.isReturned)
  rejected : p.manager.metrics.orderRejected =
    UInt64.ofNat (p.submits.countP fun c => c.stage.isRejected)
  fills : p.manager.metrics.ordersFilledCount = UInt64.ofNat p.returnedFills.length
  volume : p.manager.metrics.filledVolume = UInt64.ofInt (fillTotal p.returnedFills)
  cancels : p.manager.metrics.ordersCanceled = UInt64.ofNat p.canceled.length

/-- What a run keeps.  An entry is `NEW` only while a call under its id waits to write its
status. -/
structure Accounted (p : Pool) : Prop where
  gauge : p.manager.metrics.openOrders = UInt64.ofNat p.manager.liveCount
  owned : ∀ id st, p.entry id = some st → st.status = .NEW →
    ∃ c ∈ p.submits, c.ord.clid = id ∧ c.stage.waiting = true
  counted : p.Counted

variable {p p' : Pool} {a : Section} {i : Nat} {ord : Order} {stage stage' : Stage}
  {manager : OrderManager} {fills : List Fill}

/-! ### The counters -/

/-- A section inside a call counts nothing. -/
theorem Counted.move (counted : p.Counted) (at_ : p.submits[i]? = some ⟨ord, stage⟩)
    (before : stage.result = none) (after : stage'.result = none)
    (same : ∃ gauge, manager.metrics = { p.manager.metrics with openOrders := gauge }) :
    ({ p with manager, submits := p.submits.set i ⟨ord, stage'⟩ } : Pool).Counted := by
  have unreturned : ∀ s : Stage, s.result = none →
      s.isReturned = false ∧ s.isRejected = false ∧ s.returnedFills = [] := by
    intro s none
    cases s <;> simp_all [Stage.result, Stage.isReturned, Stage.isRejected, Stage.returnedFills]
  obtain ⟨returned, rejected, empty⟩ := unreturned stage before
  obtain ⟨returned', rejected', empty'⟩ := unreturned stage' after
  have accepts := Kit.ListSet.countP_set (b := ⟨ord, stage'⟩)
    (fun c : SubmitCall => c.stage.isReturned) at_
  have rejects := Kit.ListSet.countP_set (b := ⟨ord, stage'⟩)
    (fun c : SubmitCall => c.stage.isRejected) at_
  have filled := Kit.ListSet.flatMap_set (b := ⟨ord, stage'⟩)
    (fun c : SubmitCall => c.stage.returnedFills) at_
  simp only [returned, returned', rejected, rejected', empty, empty', Bool.toNat_false, add_zero,
    List.append_nil] at accepts rejects filled
  obtain ⟨gauge, same⟩ := same
  refine ⟨?_, ?_, ?_, ?_, ?_⟩
  all_goals simp only [same, accepts, rejects]
  · exact counted.accepted
  · exact counted.rejected
  · exact counted.fills.trans (congrArg _ filled.length_eq.symm)
  · exact counted.volume.trans (congrArg _ (fillTotal_perm filled).symm)
  · exact counted.cancels

theorem volume_of_fills (fills : List Fill) (from_ : UInt64) :
    fills.foldl (fun vol f => vol + UInt64.ofInt f.size) from_ =
      from_ + UInt64.ofInt (fillTotal fills) := by
  induction fills generalizing from_ with
  | nil => exact (UInt64.add_zero from_).symm
  | cons f fills ih => rw [List.foldl_cons, ih, fillTotal_cons, UInt64.ofInt_add, UInt64.add_assoc]

/-- A new call counts only when it is rejected. -/
theorem Counted.start (counted : p.Counted) (unreturned : stage.isReturned = false)
    (same : manager.metrics = { p.manager.metrics with
      orderRejected := p.manager.metrics.orderRejected + UInt64.ofNat stage.isRejected.toNat }) :
    ({ p with manager, submits := p.submits ++ [⟨ord, stage⟩] } : Pool).Counted := by
  have empty : stage.returnedFills = [] := by
    cases stage <;> first | rfl | cases unreturned
  refine ⟨?_, ?_, ?_, ?_, ?_⟩
  all_goals simp only [same, returnedFills, List.countP_append, List.countP_singleton,
    List.flatMap_append, List.flatMap_singleton, unreturned, empty, List.append_nil, add_zero,
    Bool.false_eq_true, if_false]
  · exact counted.accepted
  · rw [counted.rejected, UInt64.ofNat_add]
    cases stage.isRejected <;> rfl
  · exact counted.fills
  · exact counted.volume
  · exact counted.cancels

/-- The last section of a call counts the call and its fills. -/
theorem Counted.report (counted : p.Counted) (at_ : p.submits[i]? = some ⟨ord, .updated fills⟩) :
    ({ p with
      manager := p.manager.reportMetrics fills
      submits := p.submits.set i ⟨ord, .returned fills⟩ } : Pool).Counted := by
  have accepts : (p.submits.set i ⟨ord, .returned fills⟩).countP (fun c => c.stage.isReturned) =
      p.submits.countP (fun c => c.stage.isReturned) + 1 :=
    Kit.ListSet.countP_set (fun c : SubmitCall => c.stage.isReturned) at_
  have rejects : (p.submits.set i ⟨ord, .returned fills⟩).countP (fun c => c.stage.isRejected) =
      p.submits.countP (fun c => c.stage.isRejected) :=
    Kit.ListSet.countP_set (fun c : SubmitCall => c.stage.isRejected) at_
  have filled := Kit.ListSet.flatMap_set (b := ⟨ord, .returned fills⟩)
    (fun c : SubmitCall => c.stage.returnedFills) at_
  have none : (Stage.updated fills).returnedFills = [] := rfl
  have all : (Stage.returned fills).returnedFills = fills := rfl
  simp only [none, all, List.append_nil] at filled
  have length := filled.length_eq
  have total := fillTotal_perm filled
  rw [List.length_append] at length
  rw [fillTotal_append] at total
  refine ⟨?_, ?_, ?_, ?_, counted.cancels⟩
  · show p.manager.metrics.orderAccepted + 1 = _
    rw [accepts, UInt64.ofNat_add, counted.accepted]
    rfl
  · rw [rejects]
    exact counted.rejected
  · show p.manager.metrics.ordersFilledCount + UInt64.ofNat fills.length = _
    rw [counted.fills, ← UInt64.ofNat_add]
    exact congrArg _ length.symm
  · show p.manager.metrics.filledVolume + fills.foldl (fun vol f => vol + UInt64.ofInt f.size) 0 = _
    rw [volume_of_fills, UInt64.zero_add, counted.volume, ← UInt64.ofInt_add]
    exact congrArg _ total.symm

theorem Counted.cancel (counted : p.Counted) (ended : Bytes × Int)
    (same : ∃ gauge, manager.metrics = { p.manager.metrics with
      openOrders := gauge
      ordersCanceled := p.manager.metrics.ordersCanceled + 1 }) :
    ({ p with manager, canceled := ended :: p.canceled } : Pool).Counted := by
  obtain ⟨gauge, same⟩ := same
  refine ⟨?_, ?_, ?_, ?_, ?_⟩
  all_goals simp only [same]
  · exact counted.accepted
  · exact counted.rejected
  · exact counted.fills
  · exact counted.volume
  · rw [List.length_cons, UInt64.ofNat_add, counted.cancels]
    rfl

end Pool

/-! ### The entries and the gauge -/

namespace OrderManager

variable {m : OrderManager} {ord : Order} {clid : Bytes} {fills : List Fill}

theorem matchBook_metrics : (m.matchBook ord).2.metrics = m.metrics := by
  simp only [matchBook]; split <;> rfl

theorem cancelOrder_gauge {size : Int} (ended : (m.cancelOrder clid).1 = some size) :
    (m.cancelOrder clid).2.metrics = { m.metrics with
      openOrders := UInt64.ofNat (m.cancelOrder clid).2.liveCount
      ordersCanceled := m.metrics.ordersCanceled + 1 } := by
  unfold cancelOrder at ended ⊢
  cases found : m.orders.lookup clid with
  | none => simp [found] at ended
  | some st =>
    cases closed : st.status.isTerminal with
    | true => simp [found, closed] at ended
    | false =>
      simp only [closed, Bool.false_eq_true, if_false]
      rfl

end OrderManager

theorem State.afterMatch_status_ne_new (st : State) (fills : List Fill) :
    (st.afterMatch fills).status ≠ .NEW := by
  unfold State.afterMatch
  split_ifs <;> simp

namespace Pool

variable {p p' : Pool} {a : Section} {i : Nat} {ord : Order} {stage stage' : Stage}
  {manager : OrderManager}

theorem waiting_set (at_ : p.submits[i]? = some ⟨ord, stage⟩)
    (goes : stage.waiting = true → stage'.waiting = true) {id : Bytes}
    (owned : ∃ c ∈ p.submits, c.ord.clid = id ∧ c.stage.waiting = true) :
    ∃ c ∈ p.submits.set i ⟨ord, stage'⟩, c.ord.clid = id ∧ c.stage.waiting = true := by
  obtain ⟨c, member, own, waiting⟩ := owned
  rcases Kit.ListSet.mem_set_or_eq (b := ⟨ord, stage'⟩) at_ member with still | rfl
  · exact ⟨c, still, own, waiting⟩
  · refine ⟨⟨ord, stage'⟩, List.mem_set ?_ _, own, goes waiting⟩
    exact (List.getElem?_eq_some_iff.mp at_).1

theorem owned_append {c : SubmitCall} (owned : ∀ id st, p.entry id = some st → st.status = .NEW →
      ∃ c ∈ p.submits, c.ord.clid = id ∧ c.stage.waiting = true) :
    ∀ id st, p.entry id = some st → st.status = .NEW →
      ∃ c' ∈ p.submits ++ [c], c'.ord.clid = id ∧ c'.stage.waiting = true := by
  intro id st found new
  obtain ⟨c', member, own, waiting⟩ := owned id st found new
  exact ⟨c', List.mem_append_left _ member, own, waiting⟩

/-- An entry that is still `NEW` belongs to a call that goes on after a section which leaves every
`NEW` entry as it was. -/
theorem owned_set (owned : ∀ id st, p.entry id = some st → st.status = .NEW →
      ∃ c ∈ p.submits, c.ord.clid = id ∧ c.stage.waiting = true)
    (at_ : p.submits[i]? = some ⟨ord, stage⟩) (goes : stage.waiting = true → stage'.waiting = true)
    (same : manager.orders = p.manager.orders) : ∀ id st, manager.orders.lookup id = some st →
      st.status = .NEW →
      ∃ c ∈ p.submits.set i ⟨ord, stage'⟩, c.ord.clid = id ∧ c.stage.waiting = true := by
  intro id st found new
  rw [same] at found
  exact waiting_set at_ goes (owned id st found new)

/-- The step. -/
theorem accounted_step (accounted : p.Accounted) (stepped : p.step a = some p') : p'.Accounted := by
  obtain ⟨gauge, owned, counted⟩ := accounted
  cases steps_of_step stepped with
  | rejected ord reason checked =>
    exact ⟨gauge, owned_append owned, counted.start rfl rfl⟩
  | checked ord checked =>
    exact ⟨gauge, owned_append owned, counted.start rfl (by simp [Stage.isRejected])⟩
  | inserted i ord at_ =>
    refine ⟨rfl, fun id st found new => ?_, counted.move at_ rfl rfl ⟨_, rfl⟩⟩
    simp only [entry, OrderManager.insertNew_lookup] at found
    split_ifs at found with own
    · exact ⟨⟨ord, .inserted⟩, List.mem_set (List.getElem?_eq_some_iff.mp at_).1 _, own.symm, rfl⟩
    · exact waiting_set at_ nofun (owned id st found new)
  | matched i ord at_ =>
    have same : (p.manager.matchBook ord).2.metrics = p.manager.metrics :=
      OrderManager.matchBook_metrics
    refine ⟨?_, owned_set owned at_ (fun _ => rfl) OrderManager.matchBook_orders,
      counted.move at_ rfl rfl ⟨p.manager.metrics.openOrders, same⟩⟩
    simp only [OrderManager.liveCount, OrderManager.matchBook_orders, same]
    exact gauge
  | updated i ord fills at_ =>
    refine ⟨rfl, fun id st found new => ?_, counted.move at_ rfl rfl ⟨_, rfl⟩⟩
    simp only [entry, OrderManager.updateStatus_lookup] at found
    split_ifs at found with own
    · obtain ⟨old, -, rfl⟩ := Option.map_eq_some_iff.mp found
      exact absurd new (old.afterMatch_status_ne_new fills)
    -- The call that writes its status is not the one that the entry waits for: the ids differ.
    · obtain ⟨c, member, id', waiting⟩ := owned id st found new
      rcases Kit.ListSet.mem_set_or_eq (b := ⟨ord, .updated fills⟩) at_ member with still | rfl
      · exact ⟨c, still, id', waiting⟩
      · exact absurd id'.symm own
  | returned i ord fills at_ =>
    exact ⟨gauge, owned_set owned at_ nofun rfl, counted.report at_⟩
  | refused clid ended => exact ⟨gauge, owned, counted⟩
  | canceled clid st found live manager ob policy orders =>
    have reported : (p.manager.cancelOrder clid).1 = some st.remaining := by
      rcases p.manager.cancelOrder_cases clid with ⟨ended, -⟩ | ⟨st', found', -, reported, -⟩
      · simp only [entry] at found
        simp [found, live] at ended
      · obtain rfl : st = st' := Option.some.inj (found.symm.trans found')
        exact reported
    obtain rfl : (p.manager.cancelOrder clid).2 = manager := by
      simp only [step, Option.some.injEq, Pool.mk.injEq] at stepped
      exact stepped.1
    have metrics := OrderManager.cancelOrder_gauge reported
    refine ⟨by rw [metrics], fun id st' found' new => ?_, counted.cancel _ ⟨_, metrics⟩⟩
    simp only [entry, orders] at found'
    by_cases own : id = clid
    · subst own
      rw [AList.lookup_insert] at found'
      cases found'
      cases new
    · rw [AList.lookup_insert_ne own] at found'
      exact owned id st' found' new
  | fed ev =>
    exact ⟨gauge, owned, counted.accepted, counted.rejected, counted.fills, counted.volume,
      counted.cancels⟩

theorem accounted_start (ob : Option OrderBook) (policy : RiskPolicy) :
    (start ob policy).Accounted :=
  ⟨rfl, nofun, rfl, rfl, rfl, rfl, rfl⟩

/-- Where no call is under way, no entry is `NEW`. -/
theorem Accounted.settled (accounted : p.Accounted) (idle : p.Idle) :
    ∀ id st, p.entry id = some st → st.status ≠ .NEW := by
  intro id st found new
  obtain ⟨c, member, -, waiting⟩ := accounted.owned id st found new
  have ended := idle c member
  cases h : c.stage <;> simp_all [Stage.waiting, Stage.result]

theorem completed_eq (p : Pool) : p.completed =
    p.submits.countP (fun c => c.stage.isReturned) +
      p.submits.countP (fun c => c.stage.isRejected) := by
  unfold completed
  induction p.submits with
  | nil => rfl
  | cons c submits ih =>
    simp only [List.countP_cons, ih, c.stage.counted_once]
    omega

theorem Accounted.reconciled (accounted : p.Accounted) : p.Reconciled := by
  have counted := accounted.counted
  refine ⟨accounted.gauge, accounted.settled, fun idle => ?_, fun _ => ?_, fun _ => counted.fills,
    fun _ => counted.volume, fun _ => counted.cancels⟩
  · rw [accounted.gauge, OrderManager.liveCount, OrderManager.openOrderCount]
    congr 1
    refine countIf_congr fun id st found => ?_
    have := accounted.settled idle id st found
    cases h : st.status <;> simp_all [Status.isLive, Status.isOpen]
  · rw [counted.accepted, counted.rejected, ← UInt64.ofNat_add, p.completed_eq]

end Pool

open Pool in
/-- In every interleaving the gauge is right whenever no section runs, and all the metrics are
whenever no submission is under way. -/
theorem metrics_reconcile (ob : Option OrderBook) (policy : RiskPolicy) (sections : List Section) :
    EveryState step Reconciled (start ob policy) sections :=
  everyState_of_everyStep (I := Accounted) (fun _ _ _ accounted _ stepped =>
    accounted_step accounted stepped) (fun _ => Accounted.reconciled) (accounted_start ob policy)
    (everyStep_true _ _)

end EtradePipeline
