import EtradePipeline.Book.Matching
import EtradePipeline.Kit.KeyedList

/-! The order manager (`order_manager.h`, `order_manager.cpp`, `risk.h`, `metrics.cpp`).  Each part
of `submit_order` that runs under the manager's mutex is a function of its own, so that the same
functions serve a call that runs alone and calls whose parts interleave. -/

namespace EtradePipeline

open Kit.KeyedList (countIf)

/-- `RiskPolicy`, with 0 for no limit. -/
structure RiskPolicy where
  maxOrderSize : UInt64 := 0
  maxOpenOrders : UInt64 := 0
  deriving DecidableEq

inductive Status where
  | NEW
  | OPEN
  | PARTIAL
  | FILLED
  | CANCELED
  deriving DecidableEq

/-- The statuses that the limit check and `open_order_count` count. -/
def Status.isOpen : Status → Bool
  | OPEN | PARTIAL => true
  | _ => false

/-- The statuses that the open-orders gauge counts. -/
def Status.isLive : Status → Bool
  | NEW | OPEN | PARTIAL => true
  | _ => false

/-- The statuses in which `cancel_order` refuses. -/
def Status.isTerminal : Status → Bool
  | FILLED | CANCELED => true
  | _ => false

structure State where
  clid : Bytes
  side : Side
  symbol : Bytes
  price : Double
  originalSize : Int
  remaining : Int
  status : Status
  deriving DecidableEq

/-- What the status section writes to the entry that it finds. -/
def State.afterMatch (st : State) (fills : List Fill) : State :=
  if fills = [] then { st with status := .OPEN }
  else if st.remaining - fillTotal fills ≤ 0 then { st with remaining := 0, status := .FILLED }
  else { st with remaining := st.remaining - fillTotal fills, status := .PARTIAL }

/-- The atomic counters and the gauge of `metrics.cpp`. -/
structure Metrics where
  orderAccepted : UInt64 := 0
  orderRejected : UInt64 := 0
  ordersFilledCount : UInt64 := 0
  filledVolume : UInt64 := 0
  ordersCanceled : UInt64 := 0
  openOrders : UInt64 := 0
  deriving DecidableEq

/-- The manager, with the book that `ob_` points to and the metrics that it updates. -/
structure OrderManager where
  ob : Option OrderBook
  policy : RiskPolicy
  orders : AList fun _ : Bytes => State
  metrics : Metrics

/-- `OrderManager::SubmitResult`. -/
structure SubmitResult where
  accepted : Bool
  reason : Bytes
  fills : List Fill
  deriving DecidableEq

namespace OrderManager

/-- The manager at construction. -/
def start (ob : Option OrderBook) (policy : RiskPolicy) : OrderManager := ⟨ob, policy, ∅, {}⟩

/-- `open_order_count`, which is also the count that the limit check makes. -/
def openOrderCount (m : OrderManager) : Nat := countIf (fun st => st.status.isOpen) m.orders

/-- The recount of the open-orders gauge at the end of a locked section. -/
def setOpenOrders (m : OrderManager) : OrderManager :=
  { m with metrics.openOrders :=
      UInt64.ofNat (countIf (fun st => st.status.isLive) m.orders) }

/-- The checks of `submit_order` before it accepts: the reason of the first that fails. -/
def checkOrder (m : OrderManager) (ord : Order) : Option Bytes :=
  if ord.size ≤ 0 then some (bytes "bas_size")
  else if 0 < m.policy.maxOrderSize ∧ m.policy.maxOrderSize.toInt64.toInt < ord.size then
    some (bytes "size_exceeds_limit")
  else if 0 < m.policy.maxOpenOrders ∧ m.policy.maxOpenOrders.toNat ≤ m.openOrderCount then
    some (bytes "max_open_orders_exceeded")
  else if m.ob.isNone then some (bytes "no_orderbook")
  else none

/-- `metrics::inc_orders_rejected`. -/
def countRejected (m : OrderManager) : OrderManager :=
  { m with metrics.orderRejected := m.metrics.orderRejected + 1 }

/-- The entry that `submit_order` makes for an order. -/
def newState (ord : Order) : State where
  clid := ord.clid
  side := ord.side
  symbol := ord.symbol
  price := ord.price
  originalSize := ord.size
  remaining := ord.size
  status := .NEW

/-- The section that inserts the entry.  `emplace` keeps an entry that the id already has. -/
def insertNew (m : OrderManager) (ord : Order) : OrderManager :=
  let orders := match m.orders.lookup ord.clid with
    | some _ => m.orders
    | none => m.orders.insert ord.clid (newState ord)
  setOpenOrders { m with orders }

/-- `ob_->match_order(ord)`. -/
def matchBook (m : OrderManager) (ord : Order) : List Fill × OrderManager :=
  match m.ob with
  | none => ([], m)
  | some ob => ((ob.matchOrder ord).1, { m with ob := some (ob.matchOrder ord).2 })

/-- The section that writes the result of the match back to the entry. -/
def updateStatus (m : OrderManager) (clid : Bytes) (fills : List Fill) : OrderManager :=
  let orders := match m.orders.lookup clid with
    | some st => m.orders.insert clid (st.afterMatch fills)
    | none => m.orders
  setOpenOrders { m with orders }

/-- The counters that `submit_order` adds to outside the mutex before it returns. -/
def reportMetrics (m : OrderManager) (fills : List Fill) : OrderManager :=
  { m with
    metrics.orderAccepted := m.metrics.orderAccepted + 1
    metrics.ordersFilledCount := m.metrics.ordersFilledCount + UInt64.ofNat fills.length
    metrics.filledVolume :=
      m.metrics.filledVolume + fills.foldl (fun vol f => vol + UInt64.ofInt f.size) 0 }

/-- `submit_order`, run alone. -/
def submitOrder (m : OrderManager) (ord : Order) : SubmitResult × OrderManager :=
  match m.checkOrder ord with
  | some reason => (⟨false, reason, []⟩, m.countRejected)
  | none =>
    let (fills, matched) := (m.insertNew ord).matchBook ord
    (⟨true, [], fills⟩, (matched.updateStatus ord.clid fills).reportMetrics fills)

/-- `cancel_order`: `canceled_size` when it returns true. -/
def cancelOrder (m : OrderManager) (clid : Bytes) : Option Int × OrderManager :=
  match m.orders.lookup clid with
  | none => (none, m)
  | some st =>
    if st.status.isTerminal then (none, m)
    else
      let m := setOpenOrders
        { m with orders := m.orders.insert clid { st with remaining := 0, status := .CANCELED } }
      (some st.remaining, { m with metrics.ordersCanceled := m.metrics.ordersCanceled + 1 })

/-- A feed event applied to the book by the receiver's consumer. -/
def feed (m : OrderManager) (ev : Event) : OrderManager :=
  { m with ob := m.ob.map fun ob => ob.applyEvent ev }

end OrderManager

end EtradePipeline
