import EtradePipeline.Orders.Sections

/-! The limit on open orders, with calls that interleave.  The check counts the entries that are
`OPEN` or `PARTIAL` and an order becomes so only in its status section, so the orders in between are
not counted.  Where each check that passes leaves room for them as well, the limit holds. -/

namespace EtradePipeline

open Kit.Transition
open Kit.KeyedList (countIf countIf_insert)

/-- The stages between the limit check and the status section. -/
def Stage.inFlight : Stage → Bool
  | .checked | .inserted | .matched _ => true
  | _ => false

/-- The number of submissions between the limit check and the status section. -/
def Pool.inFlight (p : Pool) : Nat := p.submits.countP fun c => c.stage.inFlight

/-- A section other than a limit check that passes although the open entries and the submissions in
flight already reach the limit. -/
def Pool.LeavesRoom (p : Pool) : Section → Prop
  | .check ord => p.manager.checkOrder ord = none →
      p.manager.openOrderCount + p.inFlight < p.manager.policy.maxOpenOrders.toNat
  | _ => True

instance (p : Pool) : ∀ a, Decidable (p.LeavesRoom a)
  | .check _ => inferInstanceAs (Decidable (_ → _))
  | .advance _ | .cancel _ | .feed _ => inferInstanceAs (Decidable True)

namespace OrderManager

variable {m : OrderManager} {ord : Order} {clid : Bytes}

theorem insertNew_openOrderCount : (m.insertNew ord).openOrderCount = m.openOrderCount := by
  simp only [openOrderCount, insertNew, setOpenOrders_orders]
  cases found : m.orders.lookup ord.clid with
  | some st => rfl
  | none =>
    have := countIf_insert (fun st => st.status.isOpen) m.orders ord.clid (newState ord)
    simpa [found, newState, Status.isOpen] using this

theorem updateStatus_openOrderCount (m : OrderManager) (clid : Bytes) (fills : List Fill) :
    (m.updateStatus clid fills).openOrderCount ≤ m.openOrderCount + 1 := by
  simp only [openOrderCount, updateStatus, setOpenOrders_orders]
  cases found : m.orders.lookup clid with
  | none => simp
  | some st =>
    have := countIf_insert (fun st => st.status.isOpen) m.orders clid (st.afterMatch fills)
    have := Bool.toNat_le (st.afterMatch fills).status.isOpen
    show countIf _ (m.orders.insert clid (st.afterMatch fills)) ≤ _
    omega

end OrderManager

namespace Pool

variable {p p' : Pool} {a : Section}

/-- What carries the limit over a run: it covers the submissions in flight too. -/
structure WithinLimit (policy : RiskPolicy) (p : Pool) : Prop where
  same : p.manager.policy = policy
  covered : p.manager.openOrderCount + p.inFlight ≤ policy.maxOpenOrders.toNat

theorem inFlight_set {i : Nat} {ord : Order} {stage : Stage}
    (at_ : p.submits[i]? = some ⟨ord, stage⟩) (manager : OrderManager) (stage' : Stage) :
    ({ p with manager, submits := p.submits.set i ⟨ord, stage'⟩ } : Pool).inFlight +
      stage.inFlight.toNat = p.inFlight + stage'.inFlight.toNat :=
  Kit.ListSet.countP_set (fun c : SubmitCall => c.stage.inFlight) at_

/-- The step: a section that leaves room keeps the limit over open and in-flight orders. -/
theorem withinLimit_step {policy : RiskPolicy} (within : p.WithinLimit policy)
    (room : p.LeavesRoom a) (stepped : p.step a = some p') : p'.WithinLimit policy := by
  obtain ⟨rfl, covered⟩ := within
  cases steps_of_step stepped with
  | rejected ord reason checked =>
    refine ⟨rfl, ?_⟩
    simpa [inFlight, Stage.inFlight, OrderManager.openOrderCount] using covered
  | checked ord checked =>
    refine ⟨rfl, ?_⟩
    have := room checked
    simp only [inFlight, List.countP_append, List.countP_singleton, Stage.inFlight, if_true]
      at this ⊢
    omega
  | inserted i ord at_ =>
    refine ⟨rfl, ?_⟩
    have moved := inFlight_set at_ (p.manager.insertNew ord) .inserted
    simp only [Stage.inFlight] at moved
    simp only [OrderManager.insertNew_openOrderCount]
    omega
  | matched i ord at_ =>
    refine ⟨OrderManager.matchBook_policy, ?_⟩
    have moved :=
      inFlight_set at_ (p.manager.matchBook ord).2 (.matched (p.manager.matchBook ord).1)
    simp only [Stage.inFlight] at moved
    simp only [OrderManager.openOrderCount, OrderManager.matchBook_orders] at covered ⊢
    omega
  | updated i ord fills at_ =>
    refine ⟨rfl, ?_⟩
    have moved := inFlight_set at_ (p.manager.updateStatus ord.clid fills) (.updated fills)
    have := p.manager.updateStatus_openOrderCount ord.clid fills
    simp only [Stage.inFlight, Bool.toNat_true, Bool.toNat_false] at moved
    show (p.manager.updateStatus ord.clid fills).openOrderCount + _ ≤ _
    omega
  | returned i ord fills at_ =>
    refine ⟨rfl, ?_⟩
    have moved := inFlight_set at_ (p.manager.reportMetrics fills) (.returned fills)
    simp only [Stage.inFlight] at moved
    show p.manager.openOrderCount + _ ≤ _
    omega
  | refused clid ended => exact ⟨rfl, covered⟩
  | canceled clid st found live manager ob policy orders =>
    refine ⟨policy, ?_⟩
    have := countIf_insert (fun st => st.status.isOpen) p.manager.orders clid
      { st with remaining := 0, status := .CANCELED }
    have closed :
        ({ st with remaining := 0, status := .CANCELED } : State).status.isOpen.toNat = 0 :=
      rfl
    show countIf _ manager.orders + p.inFlight ≤ _
    rw [orders]
    simp only [OrderManager.openOrderCount] at covered
    omega
  | fed ev => exact ⟨rfl, covered⟩

end Pool

/-- In every run whose limit checks leave room for the submissions in flight, every state has at
most `max_open_orders` open entries. -/
theorem open_limit_of_leavesRoom (ob : Option OrderBook) (policy : RiskPolicy)
    (sections : List Section)
    (each : EveryStep Pool.step Pool.LeavesRoom (Pool.start ob policy) sections) :
    EveryState Pool.step (fun p => p.manager.openOrderCount ≤ policy.maxOpenOrders.toNat)
      (Pool.start ob policy) sections := by
  refine everyState_of_everyStep (I := Pool.WithinLimit policy) ?keeps ?gives ⟨rfl, ?empty⟩ each
  case keeps => exact fun p a p' within room stepped => Pool.withinLimit_step within room stepped
  case gives =>
    intro p within
    have := within.covered
    omega
  case empty => simp [Pool.start, OrderManager.start, OrderManager.openOrderCount, Pool.inFlight]

def limitedOrder (clid : Bytes) : Order := ⟨clid, .buy, bytes "AAPL", .finite 100, 10⟩

/-- Two submissions, one after the other, under a limit of one open order: the second is
rejected. -/
theorem open_limit_in_turn :
    EveryState Pool.step (fun p => p.manager.openOrderCount ≤ 1)
      (Pool.start (some .empty) { maxOpenOrders := 1 })
      [.check (limitedOrder (bytes "cli1")), .advance 0, .advance 0, .advance 0, .advance 0,
        .check (limitedOrder (bytes "cli2"))] :=
  open_limit_of_leavesRoom (some .empty) { maxOpenOrders := 1 } _ (by decide)

/-- Two submissions that both pass the limit check before either is inserted. -/
def overlappingChecks : List Section :=
  [.check (limitedOrder (bytes "cli1")), .check (limitedOrder (bytes "cli2")),
    .advance 0, .advance 0, .advance 0, .advance 1, .advance 1, .advance 1]

/-- Under a limit of one open order, both of them end `OPEN`. -/
theorem open_limit_exceeded :
    (overlappingChecks.filterMap Pool.submitted).Nodup ∧
    (run Pool.step (Pool.start (some .empty) { maxOpenOrders := 1 }) overlappingChecks).map
      (fun p => p.manager.openOrderCount) = some 2 ∧
    ¬ EveryState Pool.step (fun p => p.manager.openOrderCount ≤ 1)
      (Pool.start (some .empty) { maxOpenOrders := 1 }) overlappingChecks := by
  have final : (run Pool.step (Pool.start (some .empty) { maxOpenOrders := 1 })
      overlappingChecks).map (fun p => p.manager.openOrderCount) = some 2 := by decide
  refine ⟨by decide, final, fun all => ?_⟩
  obtain ⟨p, ran, count⟩ := Option.map_eq_some_iff.mp final
  have := all overlappingChecks (List.prefix_refl _) p ran
  omega

end EtradePipeline
