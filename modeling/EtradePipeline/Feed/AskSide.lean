import EtradePipeline.Book.Ledger
import EtradePipeline.Book.Symbols
import EtradePipeline.Feed.Frame
import EtradePipeline.Orders.Calls
import Mathlib.Data.List.Induction

/-! What the feed makes of an empty book.  A bid would have to be put below another bid, so there
never is one, and orders to sell find nothing.  Until somebody buys, the asks of a symbol are the
last sizes that its events gave. -/

namespace EtradePipeline

open Kit (OrderedMap)

/-- The price of an event compares. -/
def BookOp.Comparable : BookOp → Prop
  | .feed ev => ev.price.Comparable
  | .order _ | .setLevel .. => True

/-- The call is an order to buy the symbol. -/
def BookOp.Buys (symbol : Bytes) : BookOp → Prop
  | .order ord => ord.symbol = symbol ∧ ord.side = .buy
  | .feed _ | .setLevel .. => False

/-- The size that a call publishes for a price of a symbol. -/
def BookOp.sizeAt (symbol : Bytes) (p : Double) : BookOp → Option Int
  | .feed ev => if ev.symbolStr = symbol ∧ ev.price = p then some ev.size else none
  | .order _ | .setLevel .. => none

/-- The last size published for a price of a symbol. -/
def lastSize (symbol : Bytes) (p : Double) (ops : List BookOp) : Option Int :=
  (ops.filterMap (BookOp.sizeAt symbol p)).getLast?

/-- The asks of the symbol are the last sizes published for it, without those that are not
positive. -/
def SideBook.LastSizes (sb : SideBook) (symbol : Bytes) (ops : List BookOp) : Prop :=
  sb.asks.KeysIn Double.Comparable ∧
    ∀ p : Double, p.Comparable → sb.asks.get? p = (lastSize symbol p ops).filter (0 < ·)

instance (symbol : Bytes) : ∀ op, Decidable (BookOp.Buys symbol op)
  | .order _ => inferInstanceAs (Decidable (_ ∧ _))
  | .feed _ | .setLevel .. => inferInstanceAs (Decidable False)

theorem lastSize_append (symbol : Bytes) (p : Double) (ops : List BookOp) (op : BookOp) :
    lastSize symbol p (ops ++ [op]) = (op.sizeAt symbol p).or (lastSize symbol p ops) := by
  rw [lastSize, List.filterMap_append, List.getLast?_append, lastSize]
  cases h : op.sizeAt symbol p <;> simp [h]

namespace SideBook

variable {sb : SideBook} {symbol : Bytes} {ops : List BookOp} {op : BookOp}

/-- A call that publishes nothing for the symbol and leaves its asks. -/
theorem LastSizes.keep {sb' : SideBook} (last : sb.LastSizes symbol ops) (same : sb'.asks = sb.asks)
    (silent : ∀ p, op.sizeAt symbol p = none) : sb'.LastSizes symbol (ops ++ [op]) := by
  obtain ⟨keys, sizes⟩ := last
  refine ⟨same ▸ keys, fun p comparable => ?_⟩
  rw [same, sizes p comparable, lastSize_append, silent p, Option.none_or]

/-- An event for the symbol. -/
theorem LastSizes.applyLevel {ev : Event} (last : sb.LastSizes ev.symbolStr ops)
    (bids : sb.bids.entries = []) (comparable : ev.price.Comparable) :
    (sb.applyLevel ev.price ev.size).LastSizes ev.symbolStr (ops ++ [.feed ev]) := by
  obtain ⟨keys, sizes⟩ := last
  simp only [SideBook.applyLevel, bids]
  split_ifs with none
  · refine ⟨keys.erase, fun p hp => ?_⟩
    rw [OrderedMap.get?_erase lt_totalOn keys comparable hp, lastSize_append, sizes p hp]
    simp only [BookOp.sizeAt, true_and]
    split_ifs
    · simp [Option.filter, not_lt.mpr none]
    · rfl
  · refine ⟨keys.set comparable, fun p hp => ?_⟩
    rw [OrderedMap.get?_set lt_totalOn keys comparable hp, lastSize_append, sizes p hp]
    simp only [BookOp.sizeAt, true_and]
    split_ifs
    · simp [Option.filter, not_le.mp none]
    · rfl

end SideBook

namespace OrderBook

variable {ob : OrderBook} {symbol : Bytes} {ops : List BookOp} {op : BookOp}

theorem after_lastSizes (last : (ob.sideBook symbol).LastSizes symbol ops)
    (bids : ∀ symbol, (ob.sideBook symbol).bids.entries = []) (named : symbol ≠ []) (live : op.Live)
    (comparable : op.Comparable) (sells : ¬ op.Buys symbol) :
    ((ob.after op).sideBook symbol).LastSizes symbol (ops ++ [op]) := by
  by_cases own : symbol = op.symbol
  · subst own
    cases op with
    | feed ev =>
      have named : ev.symbolStr ≠ [] := named
      have after : (ob.applyEvent ev).sideBook ev.symbolStr =
          (ob.sideBook ev.symbolStr).applyLevel ev.price ev.size := by
        rw [applyEvent, if_neg named, sideBook_put_same]
      show ((ob.applyEvent ev).sideBook ev.symbolStr).LastSizes ev.symbolStr _
      rw [after]
      exact last.applyLevel (bids ev.symbolStr) comparable
    | order ord =>
      have facing : Side.buy ≠ ord.side := fun same => sells ⟨rfl, same.symm⟩
      have asks := ob.matchOrder_opposite ord .buy
      rw [if_neg facing] at asks
      exact last.keep (OrderedMap.ext_entries asks) fun _ => rfl
    | setLevel => exact live.elim
  · refine last.keep (congrArg SideBook.asks (after_other op own)) fun p => ?_
    cases op with
    | feed ev => exact if_neg fun h => own h.1.symm
    | order | setLevel => rfl

theorem run_lastSizes (named : symbol ≠ []) (live : ∀ op ∈ ops, op.Live)
    (comparable : ∀ op ∈ ops, op.Comparable) (sells : ∀ op ∈ ops, ¬ op.Buys symbol) :
    ((ops.foldl after .empty).sideBook symbol).LastSizes symbol ops := by
  induction ops using List.reverseRecOn with
  | nil => exact ⟨nofun, fun _ _ => rfl⟩
  | append_singleton ops op ih =>
    simp only [List.forall_mem_append, List.forall_mem_singleton] at live comparable sells
    rw [List.foldl_append]
    exact after_lastSizes (ih live.1 comparable.1 sells.1)
      (Fed.no_bids ⟨ops, live.1, rfl⟩) named live.2
      comparable.2 sells.2

end OrderBook

/-- An order to sell that is accepted on a book without bids fills nothing, and waits whole. -/
theorem OrderManager.sell_waits {m : OrderManager} {ob : OrderBook} (attached : m.ob = some ob)
    {ord : Order} (sells : ord.side = .sell) (bids : (ob.sideBook ord.symbol).bids.entries = [])
    (fresh : m.orders.lookup ord.clid = none) (accepted : (m.submitOrder ord).1.accepted = true) :
    (m.submitOrder ord).1.fills = [] ∧ (m.submitOrder ord).2.orders.lookup ord.clid =
      some { newState ord with status := .OPEN } := by
  rcases m.submitOrder_cases ord with ⟨_, -, result⟩ | ⟨ob', -, attached', -, result, -, -, entries⟩
  · rw [result] at accepted
    cases accepted
  · obtain rfl : ob = ob' := Option.some.inj (attached.symm.trans attached')
    have none : (ob.matchOrder ord).1 = [] := by
      rw [OrderBook.matchOrder_fills, OrderBook.opposite, sells]
      show (matchLevels ord.clid (ob.sideBook ord.symbol).bids.entries ord.size).1 = []
      rw [bids]
      rfl
    rw [result, entries, if_pos rfl, none, fresh]
    exact ⟨rfl, rfl⟩

/-- No run of feed events and orders from the empty book makes a bid.  The best bid is a NaN, an
order to sell with a new id that is accepted waits whole and without fills, and the asks of a symbol
that nobody has bought are the last sizes that its events gave. -/
theorem feed_makes_no_bid (ops : List BookOp) (live : ∀ op ∈ ops, op.Live)
    (comparable : ∀ op ∈ ops, op.Comparable) :
    let ob := ops.foldl OrderBook.after .empty
    (∀ symbol, (ob.sideBook symbol).bids.entries = [] ∧ (ob.topOfBook symbol).1 = .nan) ∧
    (∀ (m : OrderManager) (ord : Order), m.ob = some ob → ord.side = .sell →
      m.orders.lookup ord.clid = none → (m.submitOrder ord).1.accepted = true →
      (m.submitOrder ord).1.fills = [] ∧ ∃ st,
        (m.submitOrder ord).2.orders.lookup ord.clid = some st ∧ st.status = .OPEN ∧
          st.remaining = ord.size) ∧
    ∀ symbol, symbol ≠ [] → (∀ op ∈ ops, ¬ op.Buys symbol) →
      (ob.sideBook symbol).LastSizes symbol ops := by
  intro ob
  have bids : ∀ symbol, (ob.sideBook symbol).bids.entries = [] :=
    OrderBook.Fed.no_bids ⟨ops, live, rfl⟩
  refine ⟨fun symbol => ⟨bids symbol, ?_⟩, fun m ord attached sells fresh accepted => ?_,
    fun symbol named sells => OrderBook.run_lastSizes named live comparable sells⟩
  · rw [OrderBook.topOfBook_eq]
    simp [bestPrice, bids symbol]
  · obtain ⟨fills, entry⟩ :=
      OrderManager.sell_waits attached sells (bids ord.symbol) fresh accepted
    exact ⟨fills, _, entry, rfl, rfl⟩

/-- A run of two events for one price. -/
def requotes : List BookOp :=
  [.feed ⟨1, 0, 0, 0, setSymbol (bytes "AAPL"), .finite 100, 7, setSrc []⟩,
    .feed ⟨2, 0, 0, 0, setSymbol (bytes "AAPL"), .finite 100, 5, setSrc []⟩]

theorem feed_makes_no_bid_on_requotes :
    ((requotes.foldl OrderBook.after .empty).topOfBook (bytes "AAPL")).1 = .nan ∧
      ((requotes.foldl OrderBook.after .empty).sideBook (bytes "AAPL")).asks.get? (.finite 100) =
        some 5 := by
  obtain ⟨bids, -, asks⟩ := feed_makes_no_bid requotes
    (List.forall_mem_cons.mpr ⟨trivial, List.forall_mem_singleton.mpr trivial⟩)
    (List.forall_mem_cons.mpr ⟨rfl, List.forall_mem_singleton.mpr rfl⟩)
  refine ⟨(bids _).2, ((asks (bytes "AAPL") (by decide) ?_).2 (.finite 100) rfl).trans (by decide)⟩
  exact List.forall_mem_cons.mpr ⟨id, List.forall_mem_singleton.mpr id⟩

/-- An event without a symbol is published but not stored. -/
theorem unnamed_event_unstored :
    let ev : Event := ⟨1, 0, 0, 0, setSymbol [], .finite 100, 5, setSrc []⟩
    BookOp.Live (.feed ev) ∧ ev.price.Comparable ∧ ¬ BookOp.Buys [] (.feed ev) ∧
      lastSize [] (.finite 100) [.feed ev] = some 5 ∧
      (([BookOp.feed ev].foldl OrderBook.after .empty).sideBook []).asks.get? (.finite 100) =
        none :=
  ⟨trivial, rfl, id, by decide, by decide⟩

end EtradePipeline
