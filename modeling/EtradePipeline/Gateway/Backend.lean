import EtradePipeline.Gateway.Request
import EtradePipeline.Kit.Search
import EtradePipeline.Orders.Calls

/-! What stands behind the gateway: the order manager, when the engine has an order book, and
otherwise the snapshot files.  `run_execution_gateway` makes the manager with the gateway's own
limit on sizes and keeps it for the life of the process. -/

namespace EtradePipeline

open Kit.Search (indexOf)

/-- What `read_top_of_book` finds for a symbol: `std::filesystem::exists` throws, as it does for a
name that is too long, or there is the content of a file, when one exists and opens. -/
inductive SnapshotFile where
  | throws
  | found (content : Option Bytes)
  deriving DecidableEq

/-- What the lines are handled on: a manager, or the snapshot files and the metrics when there is
none.  An exception that no thread catches ends the process, and the metrics with it. -/
inductive Venue (μ : Type) where
  | inProcess (mgr : μ)
  | snapshots (read : Bytes → SnapshotFile) (metrics : Metrics)
  | terminated (metrics : Metrics)

/-! ### Snapshots -/

/-- `content.find(word, pos)`. -/
def findFrom (content word : Bytes) (pos : Nat) : Option Nat :=
  (indexOf word (content.drop pos)).map (pos + ·)

def isNumeralChar (c : UInt8) : Bool :=
  (byte '0' ≤ c && c ≤ byte '9') || c = byte '-' || c = byte '.'

/-- The price that `read_top_of_book` gives as bid and as offer, a NaN when it finds none. -/
def topPrice (content : Option Bytes) : Double :=
  let found : Option Double := do
    let content ← content
    let pos ← findFrom content (bytes "\"levels:\":") 0
    let brace ← findFrom content (bytes "[") pos
    let pricePos ← findFrom content (bytes "\"price\"") brace
    let colon ← findFrom content (bytes ":") pricePos
    let rest := (content.drop (colon + 1)).dropWhile fun c => c = byte ' ' || c = byte '\t'
    stod (rest.takeWhile isNumeralChar)
  found.getD .nan

/-- `read_top_of_book`. -/
def readTopOfBook (content : Option Bytes) : Double × Double := (topPrice content, topPrice content)

/-! ### The requests -/

/-- What `handle_client` uses of a manager. -/
class Manager (μ : Type) where
  submit : μ → Order → SubmitResult × μ
  cancel : μ → Bytes → Option Int × μ
  countRejected : μ → μ
  metrics : μ → Metrics

instance : Manager OrderManager where
  submit := OrderManager.submitOrder
  cancel := OrderManager.cancelOrder
  countRejected := OrderManager.countRejected
  metrics := OrderManager.metrics

namespace OrderManager

variable (m : OrderManager)

@[simp] theorem submit_eq (ord : Order) : Manager.submit m ord = m.submitOrder ord := rfl
@[simp] theorem cancel_eq (clid : Bytes) : Manager.cancel m clid = m.cancelOrder clid := rfl

end OrderManager

/-- What is answered to an order for which `submit_order` has returned `r`. -/
def orderAnswers (ord : Order) (r : SubmitResult) : List Response :=
  if r.accepted then .ack ord.clid :: r.fills.map .fill
  else [.ack ord.clid, .rej ord.clid r.reason]

/-- The fill of an order at the top price of its symbol's snapshot, when the limit allows it. -/
def snapshotFill (content : Option Bytes) (ord : Order) : Option Fill :=
  let (bestBid, bestOffer) := readTopOfBook content
  if bestBid.isNan = false ∧ bestOffer.isNan = false then
    match ord.side with
    | .buy => if bestOffer.le ord.price then some ⟨ord.clid, ord.size, bestOffer⟩ else none
    | .sell => if ord.price.le bestBid then some ⟨ord.clid, ord.size, bestBid⟩ else none
  else none

theorem snapshotFill_spec {content : Option Bytes} {ord : Order} {f : Fill}
    (filled : snapshotFill content ord = some f) : f.clid = ord.clid ∧ f.size = ord.size := by
  simp only [snapshotFill] at filled
  split_ifs at filled <;> split at filled <;> cases filled <;> exact ⟨rfl, rfl⟩

/-- The metrics after a fill at a snapshot. -/
def Metrics.countFill (metrics : Metrics) (f : Fill) : Metrics :=
  { metrics with
    ordersFilledCount := metrics.ordersFilledCount + 1
    filledVolume := metrics.filledVolume + UInt64.ofInt f.size }

namespace Venue

variable {μ : Type}

/-- The process has not ended. -/
def Running : Venue μ → Prop
  | .inProcess _ | .snapshots .. => True
  | .terminated _ => False

instance : ∀ v : Venue μ, Decidable v.Running
  | .inProcess _ | .snapshots .. => inferInstanceAs (Decidable True)
  | .terminated _ => inferInstanceAs (Decidable False)

/-- What others may leave: a manager stays one and the snapshots stay snapshots, unless the process
ends. -/
def Leads : Venue μ → Venue μ → Prop
  | .inProcess _, .inProcess _ | .snapshots .., .snapshots .. => True
  | .inProcess _, .terminated _ | .snapshots .., .terminated _ => True
  | _, _ => False

instance : ∀ v w : Venue μ, Decidable (v.Leads w)
  | .inProcess _, .inProcess _ | .inProcess _, .terminated _ => inferInstanceAs (Decidable True)
  | .snapshots .., .snapshots .. | .snapshots .., .terminated _ => inferInstanceAs (Decidable True)
  | .inProcess _, .snapshots .. | .snapshots .., .inProcess _ => inferInstanceAs (Decidable False)
  | .terminated _, .inProcess _ | .terminated _, .snapshots .. | .terminated _, .terminated _ =>
    inferInstanceAs (Decidable False)

/-- An order that is taken without a manager: the acknowledgement, and what the snapshot of its
symbol fills. -/
def fillAtSnapshot (read : Bytes → SnapshotFile) (metrics : Metrics) (ord : Order) :
    List Response × Venue μ :=
  let metrics := { metrics with orderAccepted := metrics.orderAccepted + 1 }
  match read ord.symbol with
  | .throws => ([.ack ord.clid], .terminated metrics)
  | .found content =>
    match snapshotFill content ord with
    | none => ([.ack ord.clid], .snapshots read metrics)
    | some f => ([.ack ord.clid, .fill f], .snapshots read (metrics.countFill f))

/-- The acknowledgement, and at most one fill, of the order. -/
theorem fillAtSnapshot_responses (read : Bytes → SnapshotFile) (metrics : Metrics) (ord : Order) :
    ∃ filled : Option Fill, (∀ f ∈ filled, f.clid = ord.clid ∧ f.size = ord.size) ∧
      (fillAtSnapshot read metrics ord : List Response × Venue μ).1 =
        .ack ord.clid :: (filled.map .fill).toList := by
  unfold fillAtSnapshot
  simp only
  split
  · exact ⟨none, nofun, rfl⟩
  · split
    · exact ⟨none, nofun, rfl⟩
    · rename_i f filled
      refine ⟨some f, fun f' same => ?_, rfl⟩
      cases same
      exact snapshotFill_spec filled

variable [Manager μ]

def metrics : Venue μ → Metrics
  | .inProcess mgr => Manager.metrics mgr
  | .snapshots _ metrics | .terminated metrics => metrics

def countRejected : Venue μ → Venue μ
  | .inProcess mgr => .inProcess (Manager.countRejected mgr)
  | .snapshots read metrics =>
    .snapshots read { metrics with orderRejected := metrics.orderRejected + 1 }
  | .terminated metrics => .terminated metrics

/-- The part of `handle_client` behind the parse: what it sends, and what is left behind. -/
def perform (v : Venue μ) : Request → List Response × Venue μ
  | .refuse clid reason counted =>
    match v with
    | .terminated _ => ([], v)
    | .inProcess _ | .snapshots .. => ([.rej clid reason], if counted then v.countRejected else v)
  | .order ord =>
    match v with
    | .inProcess mgr =>
      (orderAnswers ord (Manager.submit mgr ord).1, .inProcess (Manager.submit mgr ord).2)
    | .snapshots read metrics => fillAtSnapshot read metrics ord
    | .terminated _ => ([], v)
  | .cancel clid =>
    match v with
    | .inProcess mgr =>
      let (canceled, mgr) := Manager.cancel mgr clid
      match canceled with
      | some size => ([.cal clid size], .inProcess mgr)
      | none => ([.rej clid (bytes "not_found_or_filled")], .inProcess mgr)
    | .snapshots .. => ([.rej (clid ++ bytes " ") (bytes "no_order_manager")], v)
    | .terminated _ => ([], v)

/-- What `handle_client` does with a line that is not empty. -/
def answer (maxSize : Int64) (v : Venue μ) (line : Bytes) : List Response × Venue μ :=
  match requestOf maxSize line with
  | none => ([], v)
  | some r => v.perform r

end Venue

/-! ### The manager of the gateway -/

/-- The manager that `run_execution_gateway` creates and its clients share: it has a book, and the
policy is the gateway's. -/
structure Shared (maxSize : Int64) (maxOpen : UInt64) where
  manager : OrderManager
  attached : manager.ob.isSome = true
  policy : manager.policy = { maxOrderSize := maxSize.toUInt64, maxOpenOrders := maxOpen }

namespace Shared

variable {maxSize : Int64} {maxOpen : UInt64}

theorem submit_keeps (m : OrderManager) (ord : Order) :
    (m.submitOrder ord).2.ob.isSome = m.ob.isSome ∧ (m.submitOrder ord).2.policy = m.policy := by
  rcases m.submitOrder_cases ord with ⟨reason, -, result⟩ | ⟨ob, -, attached, -, -, book, policy, -⟩
  · rw [result]
    exact ⟨rfl, rfl⟩
  · rw [book, attached]
    exact ⟨rfl, policy⟩

theorem cancel_keeps (m : OrderManager) (clid : Bytes) :
    (m.cancelOrder clid).2.ob = m.ob ∧ (m.cancelOrder clid).2.policy = m.policy := by
  rcases m.cancelOrder_cases clid with ⟨-, result⟩ | ⟨st, -, -, -, ob, policy, -⟩
  · rw [result]
    exact ⟨rfl, rfl⟩
  · exact ⟨ob, policy⟩

/-- `mgr->submit_order(in)`. -/
def submit (s : Shared maxSize maxOpen) (ord : Order) : SubmitResult × Shared maxSize maxOpen :=
  ((s.manager.submitOrder ord).1, ⟨(s.manager.submitOrder ord).2,
    (submit_keeps s.manager ord).1.trans s.attached, (submit_keeps s.manager ord).2.trans s.policy⟩)

/-- `mgr->cancel_order(clid, canceled)`. -/
def cancel (s : Shared maxSize maxOpen) (clid : Bytes) : Option Int × Shared maxSize maxOpen :=
  ((s.manager.cancelOrder clid).1, ⟨(s.manager.cancelOrder clid).2,
    (congrArg _ (cancel_keeps s.manager clid).1).trans s.attached,
    (cancel_keeps s.manager clid).2.trans s.policy⟩)

/-- `metrics::inc_orders_rejected`. -/
def countRejected (s : Shared maxSize maxOpen) : Shared maxSize maxOpen :=
  ⟨s.manager.countRejected, s.attached, s.policy⟩

end Shared

instance {maxSize : Int64} {maxOpen : UInt64} : Manager (Shared maxSize maxOpen) where
  submit := Shared.submit
  cancel := Shared.cancel
  countRejected := Shared.countRejected
  metrics mgr := mgr.manager.metrics

@[simp] theorem Shared.submit_eq {maxSize : Int64} {maxOpen : UInt64} (s : Shared maxSize maxOpen)
    (ord : Order) : Manager.submit s ord = s.submit ord := rfl

@[simp] theorem Shared.cancel_eq {maxSize : Int64} {maxOpen : UInt64} (s : Shared maxSize maxOpen)
    (clid : Bytes) : Manager.cancel s clid = s.cancel clid := rfl

/-- What stands behind the gateway. -/
abbrev Backend (maxSize : Int64) (maxOpen : UInt64) := Venue (Shared maxSize maxOpen)

/-- What the gateway does with a line that is not empty. -/
def Backend.answer {maxSize : Int64} {maxOpen : UInt64} (b : Backend maxSize maxOpen)
    (line : Bytes) :
    List Response × Backend maxSize maxOpen :=
  Venue.answer maxSize b line

theorem Backend.answer_of_some {maxSize : Int64} {maxOpen : UInt64} (b : Backend maxSize maxOpen)
    {line : Bytes} {req : Request} (asked : requestOf maxSize line = some req) :
    b.answer line = b.perform req := by
  simp only [answer, Venue.answer, asked]

theorem Backend.answer_of_none {maxSize : Int64} {maxOpen : UInt64} (b : Backend maxSize maxOpen)
    {line : Bytes} (asked : requestOf maxSize line = none) : b.answer line = ([], b) := by
  simp only [answer, Venue.answer, asked]

end EtradePipeline
