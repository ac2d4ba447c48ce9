import EtradePipeline.Book.OrderBook
import EtradePipeline.Receiver.Record

/-! What an event of the feed leaves untouched.  The maps of a book take two prices for the same
when neither compares less, so a NaN is the same as every price.  An event at a NaN price, or a book
that holds a level at one, makes the event reach a level that is not its own. -/

namespace EtradePipeline

open Kit (OrderedMap)
open Kit.OrderedMap (assign equiv filter_ne_assign filter_ne_discard)

/-- The levels at other prices. -/
def others (price : Double) (levels : List (Double × Int)) : List (Double × Int) :=
  levels.filter fun e => e.1 ≠ price

/-- Every level is as before, but for that of one symbol and price. -/
def OrderBook.Untouched (ob ob' : OrderBook) (symbol : Bytes) (price : Double) : Prop :=
  (∀ other, other ≠ symbol → ob'.sideBook other = ob.sideBook other) ∧
  ∀ side, others price (ob'.opposite symbol side) = others price (ob.opposite symbol side)

/-- The event's level is told apart from the asks: there is none, the best of them and the event
both have a NaN for their price or neither has, or the event gives the best of them the size it
has. -/
def Separates (asks : List (Double × Int)) (price : Double) (size : Int) : Prop :=
  match asks with
  | [] => True
  | (first, avail) :: _ => first.isNan = price.isNan ∨ 0 < size ∧ avail = size

instance (price : Double) (size : Int) : ∀ asks, Decidable (Separates asks price size)
  | [] => inferInstanceAs (Decidable True)
  | _ :: _ => inferInstanceAs (Decidable (_ ∨ _))

/-! ### The asks -/

section Asks

variable {first price : Double} {avail size : Int} {rest : List (Double × Int)}

/-- Asks of which the first is at a NaN have no other. -/
theorem rest_of_nan (sorted : ((first, avail) :: rest).Pairwise fun a b => Double.lt a.1 b.1 = true)
    (nan : first.isNan = true) : rest = [] := by
  refine List.eq_nil_iff_forall_not_mem.mpr fun e he => ?_
  have := Double.comparable_of_lt_left ((List.pairwise_cons.mp sorted).1 e he)
  rw [Double.Comparable, nan] at this
  cases this

theorem keys_comparable (sorted : ((first, avail) :: rest).Pairwise fun a b =>
    Double.lt a.1 b.1 = true)
    (comparable : first.Comparable) : ∀ e ∈ (first, avail) :: rest, e.1.Comparable := by
  intro e he
  rcases List.mem_cons.mp he with rfl | he
  · exact comparable
  · exact Double.comparable_of_lt_right ((List.pairwise_cons.mp sorted).1 e he)

/-- A NaN and another price: neither compares less, and they differ. -/
theorem apart_of_nan (apart : first.isNan ≠ price.isNan) :
    Double.lt first price = false ∧ Double.lt price first = false ∧ first ≠ price := by
  refine ⟨?_, ?_, fun same => apart (by rw [same])⟩
  · cases first <;> cases price <;> simp_all [Double.lt, Double.isNan]
  · cases first <;> cases price <;> simp_all [Double.lt, Double.isNan]

theorem others_discard_of_apart (apart : first.isNan ≠ price.isNan) :
    others price (OrderedMap.discard Double.lt price ((first, avail) :: rest)) ≠
      others price ((first, avail) :: rest) := by
  obtain ⟨below, above, ne⟩ := apart_of_nan apart
  intro same
  have kept : (first, avail) ∈ others price ((first, avail) :: rest) := by simp [others, ne]
  rw [← same] at kept
  have kept := (List.mem_filter.mp (List.mem_filter.mp kept).1).2
  simp [equiv, below, above] at kept

theorem others_assign_of_apart (apart : first.isNan ≠ price.isNan) :
    others price (assign Double.lt price size ((first, avail) :: rest)) =
      others price ((first, avail) :: rest) ↔ avail = size := by
  obtain ⟨below, above, ne⟩ := apart_of_nan apart
  simp [assign, below, above, others, ne, eq_comm]

end Asks

/-- What an event at `price` does to the asks, where there are no bids. -/
def asksAfter (asks : List (Double × Int)) (price : Double) (size : Int) : List (Double × Int) :=
  if size ≤ 0 then OrderedMap.discard Double.lt price asks else assign Double.lt price size asks

/-- The asks at other prices stay exactly where the event's level is told apart from them. -/
theorem others_asksAfter_iff {asks : List (Double × Int)} (price : Double) (size : Int)
    (sorted : asks.Pairwise fun a b => Double.lt a.1 b.1 = true) :
    others price (asksAfter asks price size) = others price asks ↔ Separates asks price size := by
  cases asks with
  | nil =>
    unfold asksAfter Separates
    split_ifs <;> simp [others, OrderedMap.discard, assign]
  | cons best rest =>
    obtain ⟨first, avail⟩ := best
    by_cases apart : first.isNan = price.isNan
    · refine iff_of_true ?_ (.inl apart)
      cases nan : price.isNan with
      | true =>
        -- Both are NaN: the event's level is the only one.
        rw [rest_of_nan sorted (apart.trans nan)]
        have same : first = price := by
          cases first <;> cases price <;> simp_all [Double.isNan]
        subst same
        unfold asksAfter others
        split_ifs <;> simp [OrderedMap.discard, assign, equiv]
      | false =>
        have keys := keys_comparable sorted (apart.trans nan)
        unfold asksAfter
        split_ifs
        · exact filter_ne_discard lt_totalOn keys nan
        · exact filter_ne_assign lt_totalOn keys nan
    · unfold asksAfter Separates
      split_ifs with empty
      · refine iff_of_false (others_discard_of_apart apart) ?_
        rintro (same | ⟨positive, -⟩)
        · exact apart same
        · omega
      · rw [others_assign_of_apart apart]
        simp [apart]
        omega

/-! ### The book -/

namespace OrderBook

variable {ob : OrderBook} {symbol : Bytes}

/-- The feed puts a bid only below another bid, so it never puts any. -/
theorem applyLevel_asks {sb : SideBook} (bids : sb.bids.entries = []) (price : Double)
    (size : Int) :
    (sb.applyLevel price size).bids.entries = [] ∧
      (sb.applyLevel price size).asks.entries = asksAfter sb.asks.entries price size := by
  unfold SideBook.applyLevel asksAfter
  rw [bids]
  split_ifs
  · exact ⟨by simp [OrderedMap.erase, OrderedMap.discard, bids], rfl⟩
  · exact ⟨bids, rfl⟩

theorem after_no_bids (bids : ∀ symbol, (ob.sideBook symbol).bids.entries = []) {op : BookOp}
    (live : op.Live) (symbol : Bytes) : ((ob.after op).sideBook symbol).bids.entries = [] := by
  cases op with
  | feed ev =>
    show ((ob.applyEvent ev).sideBook symbol).bids.entries = []
    unfold applyEvent
    split_ifs
    · exact bids symbol
    · rw [sideBook_put]
      split_ifs
      · exact (applyLevel_asks (bids ev.symbolStr) ev.price ev.size).1
      · exact bids symbol
  | order ord =>
    have fewer := ob.matchOrder_keys ord symbol .sell
    simp only [opposite, SideBook.opposite, bids symbol, List.map_nil, List.sublist_nil,
      List.map_eq_nil_iff] at fewer
    exact fewer
  | setLevel => exact live.elim

theorem Fed.no_bids (fed : ob.Fed) (symbol : Bytes) : (ob.sideBook symbol).bids.entries = [] := by
  obtain ⟨ops, live, rfl⟩ := fed
  suffices ∀ start : OrderBook, (∀ symbol, (start.sideBook symbol).bids.entries = []) →
      ∀ symbol, ((ops.foldl OrderBook.after start).sideBook symbol).bids.entries = [] from
    this .empty (fun _ => rfl) symbol
  induction ops with
  | nil => exact fun _ none => none
  | cons op ops ih =>
    obtain ⟨first, rest⟩ := List.forall_mem_cons.mp live
    exact fun start none => ih rest _ fun symbol => after_no_bids none first symbol

theorem applyEvent_untouched_iff (fed : ob.Fed) (ev : Event) :
    ob.Untouched (ob.applyEvent ev) ev.symbolStr ev.price ↔
      ev.symbolStr = [] ∨ Separates (ob.opposite ev.symbolStr .buy) ev.price ev.size := by
  have none := fed.no_bids ev.symbolStr
  obtain ⟨bids, asks⟩ := applyLevel_asks none ev.price ev.size
  unfold applyEvent
  split_ifs with unnamed
  · exact iff_of_true ⟨fun _ _ => rfl, fun _ => rfl⟩ (.inl unnamed)
  · simp only [unnamed, false_or]
    have own := others_asksAfter_iff ev.price ev.size (ob.sideBook ev.symbolStr).asks.sorted
    rw [← asks] at own
    unfold Untouched
    simp only [opposite, sideBook_put_same]
    constructor
    · exact fun untouched => own.mp (untouched.2 .buy)
    · intro separate
      refine ⟨fun other ne => by rw [sideBook_put, if_neg ne], fun side => ?_⟩
      cases side
      · exact own.mpr separate
      · simp only [SideBook.opposite, bids, none]

end OrderBook

/-- A datagram that the receiver accepts changes no level but that of its symbol and price, exactly
when it has no symbol or its level is told apart from the asks of the symbol. -/
theorem feed_frame_iff (toDouble : Bytes → Option Double) (ob : OrderBook) (fed : ob.Fed)
    (payload : Bytes) (recvTsMs : Int) (source : Source) (ev : Event) :
    receiveEvent toDouble payload recvTsMs source = some ev →
      (ob.Untouched (ob.applyEvent ev) ev.symbolStr ev.price ↔
        ev.symbolStr = [] ∨ Separates (ob.opposite ev.symbolStr .buy) ev.price ev.size) :=
  fun _ => ob.applyEvent_untouched_iff fed ev

/-- The event of a datagram from port 40000 of the local host. -/
def localEvent (text : String) : Option Event :=
  receiveEvent stod (bytes text) 1005 ⟨(127, 0, 0, 1), 40000⟩

/-- The event of a datagram for `AAPL` from there, received at 1005. -/
def aaplEvent (seq msgTsMs : Int) (price : Double) (size : Int) : Event :=
  ⟨seq, msgTsMs, 1005, 1005 - msgTsMs, setSymbol (bytes "AAPL"), price, size,
    setSrc (bytes "127.0.0.1:40000")⟩

/-- A book with one level of `AAPL`, 100 at 100.00. -/
def oneAskBook : OrderBook := OrderBook.empty.applyEvent (aaplEvent 1 1000 (.finite 100) 100)

theorem oneAskBook_fed : oneAskBook.Fed :=
  ⟨[.feed (aaplEvent 1 1000 (.finite 100) 100)], by simp [BookOp.Live], rfl⟩

/-- A quote at another price of the symbol. -/
theorem feed_frame_iff_on_quote :
    oneAskBook.Untouched (oneAskBook.applyEvent (aaplEvent 2 1001 (.finite 101) 5)) (bytes "AAPL")
      (.finite 101) := by
  have received : localEvent "2|1001|AAPL|101|5" = some (aaplEvent 2 1001 (.finite 101) 5) := by
    decide +kernel
  exact (feed_frame_iff stod _ oneAskBook_fed _ _ _ _ received).mpr (by decide +kernel)

/-- A datagram with the price `nan` and no size erases the level at 100.00, and one with a size
gives that level its own. -/
theorem nan_quote_erases :
    localEvent "2|1001|AAPL|nan|0" = some (aaplEvent 2 1001 .nan 0) ∧
    localEvent "2|1001|AAPL|nan|7" = some (aaplEvent 2 1001 .nan 7) ∧
    oneAskBook.opposite (bytes "AAPL") .buy = [(.finite 100, 100)] ∧
    (oneAskBook.applyEvent (aaplEvent 2 1001 .nan 0)).opposite (bytes "AAPL") .buy = [] ∧
    (oneAskBook.applyEvent (aaplEvent 2 1001 .nan 7)).opposite (bytes "AAPL") .buy =
      [(.finite 100, 7)] ∧
    ¬ oneAskBook.Untouched (oneAskBook.applyEvent (aaplEvent 2 1001 .nan 0))
    (bytes "AAPL") .nan := by
  have before : oneAskBook.opposite (bytes "AAPL") .buy = [(.finite 100, 100)] := by decide +kernel
  have after :
      (oneAskBook.applyEvent (aaplEvent 2 1001 .nan 0)).opposite (bytes "AAPL") .buy = [] := by
    decide +kernel
  refine ⟨by decide +kernel, by decide +kernel, before, after, by decide +kernel,
    fun untouched => ?_⟩
  have same := untouched.2 .buy
  rw [before, after] at same
  exact absurd same (by decide)

end EtradePipeline
