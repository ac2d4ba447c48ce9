import EtradePipeline.Book.Matching
import EtradePipeline.Kit.KeyedList

/-! The liquidity that the feed publishes, followed through the trades of a running engine.  For
each symbol and price the ledger keeps the size of the last event and what fills have taken since.
The stored level is the difference, because the matching loop takes from each level exactly what it
fills there. -/

namespace EtradePipeline

open Kit (OrderedMap)
open Kit.OrderedMap (TotalOn find find_cons find_eq_none)
open Kit.KeyedList (total total_nil total_cons)

/-- What reaches the book of a running engine. -/
inductive Trade where
  | feed (ev : Event)
  | order (ord : Order)

/-- What has reached the book, with the fills of each order. -/
inductive Record where
  | quoted (ev : Event)
  | traded (ord : Order) (fills : List Fill)

/-- The book, and what has reached it so far, latest first. -/
structure Market where
  book : OrderBook
  log : List Record

/-- The quantity that fills trade at a price. -/
def fillsAt (p : Double) (fills : List Fill) : Int := total (fills.map fun f => (f.price, f.size)) p

namespace Market

/-- An empty book that nothing has reached. -/
def start : Market := ⟨.empty, []⟩

/-- The market after a trade. -/
def trade (m : Market) : Trade → Market
  | .feed ev => ⟨m.book.applyEvent ev, .quoted ev :: m.log⟩
  | .order ord => ⟨(m.book.matchOrder ord).2, .traded ord (m.book.matchOrder ord).1 :: m.log⟩

/-- The size of the last event for a symbol and price, and the total of the fills there since. -/
def published (symbol : Bytes) (p : Double) : List Record → Option (Int × Int)
  | [] => none
  | .quoted ev :: log =>
    if ev.symbolStr = symbol ∧ ev.price = p then some (ev.size, 0) else published symbol p log
  | .traded ord fills :: log =>
    if ord.symbol = symbol then
      (published symbol p log).map fun e => (e.1, e.2 + fillsAt p fills)
    else published symbol p log

/-- The sizes stored at a price of a symbol, on either side. -/
def stored (m : Market) (symbol : Bytes) (p : Double) : List Int :=
  (((m.book.sideBook symbol).bids.entries ++ (m.book.sideBook symbol).asks.entries).filter
    fun e => e.1 = p).map Prod.snd

/-- The level of a price holds what is left of the last event's size, and is absent exactly when
there is no such event, its size is not positive, or nothing is left. -/
def HoldsRest (m : Market) (symbol : Bytes) (p : Double) : Prop :=
  m.stored symbol p =
    match published symbol p m.log with
    | none => []
    | some (size, filled) => if size ≤ 0 ∨ size - filled = 0 then [] else [size - filled]

instance (m : Market) (symbol : Bytes) (p : Double) : Decidable (m.HoldsRest symbol p) :=
  inferInstanceAs (Decidable (_ = _))

end Market

/-! ### The matching loop, one price at a time -/

section Loop

variable {lt : Double → Double → Bool} {S : Double → Prop} {p : Double}
  {levels : List (Double × Int)}

@[simp] theorem fillsAt_nil : fillsAt p [] = 0 := rfl

theorem fillsAt_cons (f : Fill) (fills : List Fill) :
    fillsAt p (f :: fills) = (if f.price = p then f.size else 0) + fillsAt p fills := by
  simp [fillsAt, total_cons]

theorem matchLevels_conserves (ordered : TotalOn lt S) (clid : Bytes) (n : Int) (hp : S p)
    (keys : ∀ e ∈ levels, S e.1) (sorted : levels.Pairwise fun a b => lt a.1 b.1 = true)
    (positive : PositiveLevels levels) :
    (find lt p (matchLevels clid levels n).2).getD 0 + fillsAt p (matchLevels clid levels n).1 =
      (find lt p levels).getD 0 := by
  revert keys sorted positive
  refine matchLevels_induction clid (P := fun levels _ r => (∀ e ∈ levels, S e.1) →
    (levels.Pairwise fun a b => lt a.1 b.1 = true) → PositiveLevels levels →
    (find lt p r.2).getD 0 + fillsAt p r.1 = (find lt p levels).getD 0)
    ?stop ?nil ?skip ?exhaust ?finish levels n
  case stop | nil => intros; simp
  case skip =>
    intro _ avail _ _ _ empty _ _ _ positive
    have : 0 < avail := positive _ List.mem_cons_self
    omega
  case exhaust =>
    intro price avail rest n stocked enough ih keys sorted positive
    obtain ⟨first, others⟩ := List.pairwise_cons.mp sorted
    have keys' := fun e he => keys e (List.mem_cons_of_mem _ he)
    have left := ih keys' others fun e he => positive e (List.mem_cons_of_mem _ he)
    rw [find_cons ordered (keys _ List.mem_cons_self) hp, fillsAt_cons]
    simp only
    split_ifs with same
    · have gone : find lt p rest = none := by
        refine (find_eq_none ordered keys' hp).mpr fun e he equal => ?_
        have := first e he
        rw [equal, ← same, ordered.irrefl _ (same ▸ hp)] at this
        cases this
      rw [gone] at left
      simp only [Option.getD_none, Option.getD_some] at left ⊢
      omega
    · omega
  case finish =>
    intro price avail rest n more short keys sorted positive
    have head := keys (price, avail) List.mem_cons_self
    rw [find_cons (e := (price, avail)) ordered head hp,
      find_cons (e := (price, avail - n)) ordered head hp, fillsAt_cons, fillsAt_nil]
    simp only
    split_ifs
    · simp only [Option.getD_some]
      omega
    · omega

end Loop

/-! ### The book of a running engine -/

theorem fillsAt_nonneg {p : Double} {fills : List Fill} (sizes : ∀ f ∈ fills, 0 < f.size) :
    0 ≤ fillsAt p fills := by
  induction fills with
  | nil => simp
  | cons f fills ih =>
    have := sizes f List.mem_cons_self
    have := ih fun g hg => sizes g (List.mem_cons_of_mem _ hg)
    rw [fillsAt_cons]
    split_ifs <;> omega

/-- The levels of a symbol that only the feed has quoted: no bid, and asks at comparable prices with
positive sizes. -/
structure SideBook.AsksOnly (sb : SideBook) : Prop where
  bids : sb.bids.entries = []
  keys : sb.asks.KeysIn Double.Comparable
  sizes : sb.asks.Values (0 < ·)

namespace SideBook

variable {sb : SideBook} {p : Double}

/-- The size stored at an ask, 0 when there is none. -/
def askSize (sb : SideBook) (p : Double) : Int := (sb.asks.get? p).getD 0

theorem AsksOnly.get?_pos (asksOnly : sb.AsksOnly) {size : Int}
    (found : sb.asks.get? p = some size) :
    0 < size := by
  simp only [OrderedMap.get?, find, Option.map_eq_some_iff] at found
  obtain ⟨e, he, rfl⟩ := found
  exact asksOnly.sizes e (List.mem_of_find?_eq_some he)

theorem AsksOnly.askSize_nonneg (asksOnly : sb.AsksOnly) : 0 ≤ sb.askSize p := by
  unfold askSize
  cases found : sb.asks.get? p with
  | none => exact le_refl 0
  | some size => exact (asksOnly.get?_pos found).le

theorem AsksOnly.applyLevel (asksOnly : sb.AsksOnly) {price : Double}
    (comparable : price.Comparable) (size : Int) : (sb.applyLevel price size).AsksOnly ∧
      ∀ p, p.Comparable → (sb.applyLevel price size).askSize p =
        if price = p then max size 0 else sb.askSize p := by
  obtain ⟨bids, keys, sizes⟩ := asksOnly
  unfold SideBook.applyLevel
  rw [bids]
  split_ifs with empty
  · refine ⟨⟨?_, keys.erase, sizes.erase⟩, fun p hp => ?_⟩
    · simp [OrderedMap.erase, OrderedMap.discard, bids]
    · simp only [askSize, OrderedMap.get?_erase lt_totalOn keys comparable hp]
      split_ifs
      · exact (max_eq_right empty).symm
      · rfl
  · have positive : 0 < size := by omega
    refine ⟨⟨bids, keys.set comparable, sizes.set positive⟩, fun p hp => ?_⟩
    simp only [askSize, OrderedMap.get?_set lt_totalOn keys comparable hp]
    split_ifs
    · exact (max_eq_left positive.le).symm
    · rfl

end SideBook

namespace OrderBook

variable {ob : OrderBook}

/-- An event sets the size at its price on the ask side of its symbol. -/
theorem applyEvent_asks (asksOnly : ∀ symbol, (ob.sideBook symbol).AsksOnly) {ev : Event}
    (comparable : ev.price.Comparable) (symbol : Bytes) :
    ((ob.applyEvent ev).sideBook symbol).AsksOnly ∧
      (symbol ≠ [] → ∀ p, p.Comparable → ((ob.applyEvent ev).sideBook symbol).askSize p =
        if ev.symbolStr = symbol ∧ ev.price = p then max ev.size 0
        else (ob.sideBook symbol).askSize p) := by
  unfold OrderBook.applyEvent
  split_ifs with unnamed
  · refine ⟨asksOnly symbol, fun named p _ => ?_⟩
    rw [if_neg]
    rintro ⟨own, -⟩
    exact named (own ▸ unnamed)
  · rw [OrderBook.sideBook_put]
    by_cases own : symbol = ev.symbolStr
    · subst own
      obtain ⟨kept, sizes⟩ := (asksOnly ev.symbolStr).applyLevel comparable ev.size
      simp only [if_true, true_and]
      exact ⟨kept, fun _ => sizes⟩
    · simp only [own, Ne.symm own, if_false, false_and]
      exact ⟨asksOnly symbol, by simp⟩

/-- An order takes from the asks of its symbol what it fills there, and leaves every other symbol
alone. -/
theorem matchOrder_asks (asksOnly : ∀ symbol, (ob.sideBook symbol).AsksOnly) (ord : Order)
    (symbol : Bytes) : ((ob.matchOrder ord).2.sideBook symbol).AsksOnly ∧
      ∀ p : Double, p.Comparable → ((ob.matchOrder ord).2.sideBook symbol).askSize p +
          (if ord.symbol = symbol then fillsAt p (ob.matchOrder ord).1 else 0) =
        (ob.sideBook symbol).askSize p := by
  rcases ob.matchOrder_cases ord with ⟨-, none, same⟩ | ⟨-, fills, walked, kept, others⟩
  · rw [same, none]
    exact ⟨asksOnly symbol, by simp⟩
  by_cases own : ord.symbol = symbol
  · subst own
    obtain ⟨bids, keys, sizes⟩ := asksOnly ord.symbol
    simp only [if_true, fills]
    obtain ⟨clid, side, symbol, price, size⟩ := ord
    cases side with
    | buy =>
      have left :
        ((ob.matchOrder ⟨clid, .buy, symbol, price, size⟩).2.sideBook symbol).asks.entries =
          (matchLevels clid (ob.sideBook symbol).asks.entries size).2 := walked
      refine ⟨⟨(kept .sell nofun).trans bids, fun e he => ?_, fun e he => ?_⟩, fun p hp => ?_⟩
      · rw [left] at he
        have := (matchLevels_keys clid _ size).subset (List.mem_map.mpr ⟨e, he, rfl⟩)
        obtain ⟨e', he', same⟩ := List.mem_map.mp this
        exact same ▸ keys e' he'
      · rw [left] at he
        exact matchLevels_positive clid _ size sizes e he
      · simp only [SideBook.askSize, OrderedMap.get?, left]
        exact matchLevels_conserves lt_totalOn clid size hp keys
          (ob.sideBook symbol).asks.sorted sizes
    | sell =>
      have none : ob.opposite symbol .sell = [] := bids
      have asks : ((ob.matchOrder ⟨clid, .sell, symbol, price, size⟩).2.sideBook symbol).asks =
          (ob.sideBook symbol).asks := OrderedMap.ext_entries (kept .buy nofun)
      rw [none] at walked ⊢
      refine ⟨⟨walked, asks ▸ keys, asks ▸ sizes⟩, fun p _ => ?_⟩
      simp [SideBook.askSize, asks, matchLevels]
  · rw [others symbol (Ne.symm own)]
    simp only [own, if_false, add_zero]
    exact ⟨asksOnly symbol, by simp⟩

end OrderBook

/-! ### The ledger of a run -/

/-- A feed event of the trade has a price that compares. -/
def Trade.Comparable : Trade → Prop
  | .feed ev => ev.price.Comparable
  | .order _ => True

namespace Market

variable {m : Market} {symbol : Bytes} {p : Double}

/-- The fills since the last event are no more than it published. -/
def FillsWithin (log : List Record) (symbol : Bytes) (p : Double) : Prop :=
  ∀ size filled, published symbol p log = some (size, filled) → 0 ≤ filled ∧ filled ≤ max size 0

/-- What is left of the last event, 0 when there is none. -/
def rest (log : List Record) (symbol : Bytes) (p : Double) : Int :=
  (published symbol p log).elim 0 fun e => max e.1 0 - e.2

/-- The invariant of a run: the asks hold what is left of the last events. -/
structure Settled (m : Market) : Prop where
  asksOnly : ∀ symbol, (m.book.sideBook symbol).AsksOnly
  quoted : ∀ symbol p, published symbol p m.log ≠ none → p.Comparable
  within : ∀ symbol p, symbol ≠ [] → FillsWithin m.log symbol p
  left : ∀ symbol p, symbol ≠ [] → p.Comparable →
    (m.book.sideBook symbol).askSize p = rest m.log symbol p

theorem start_settled : start.Settled := by
  refine ⟨fun symbol => ⟨rfl, ?_, ?_⟩, fun _ _ some => absurd rfl some, ?_, fun _ _ _ _ => rfl⟩
  · intro e he
    cases he
  · intro e he
    cases he
  · intro _ _ _ _ _ none
    cases none

theorem settled_feed (settled : m.Settled) {ev : Event} (comparable : ev.price.Comparable) :
    (m.trade (.feed ev)).Settled := by
  have book := OrderBook.applyEvent_asks settled.asksOnly comparable
  refine ⟨fun symbol => (book symbol).1, fun symbol p some => ?_, ?_,
    fun symbol p named hp => ?_⟩
  · simp only [trade, published] at some
    split_ifs at some with own
    · exact own.2 ▸ comparable
    · exact settled.quoted symbol p some
  · intro symbol p named size filled found
    simp only [trade, published] at found
    split_ifs at found with own
    · cases found
      exact ⟨le_refl 0, le_max_right _ _⟩
    · exact settled.within symbol p named size filled found
  · show ((m.book.applyEvent ev).sideBook symbol).askSize p = _
    rw [(book symbol).2 named p hp]
    simp only [trade, rest, published]
    split_ifs
    · simp
    · exact settled.left symbol p named hp

theorem settled_order (settled : m.Settled) (ord : Order) : (m.trade (.order ord)).Settled := by
  have book := OrderBook.matchOrder_asks settled.asksOnly ord
  have taken : ∀ p, 0 ≤ fillsAt p (m.book.matchOrder ord).1 := fun p =>
    fillsAt_nonneg fun f hf => (m.book.matchOrder_fill ord f hf).1
  have known : ∀ symbol p, published symbol p (m.trade (.order ord)).log ≠ none →
      published symbol p m.log ≠ none := by
    intro symbol p some none
    simp [trade, published, none] at some
  refine ⟨fun symbol => (book symbol).1, fun symbol p some =>
    settled.quoted symbol p (known _ _ some),
    fun symbol p named size filled found => ?_, fun symbol p named hp => ?_⟩
  · have hp := settled.quoted symbol p (known symbol p (by simp [found]))
    have before := settled.left symbol p named hp
    have nonneg := (book symbol).1.askSize_nonneg (p := p)
    have sizes := (book symbol).2 p hp
    simp only [trade, published] at found
    split_ifs at found with own
    · obtain ⟨⟨size', filled'⟩, last, same⟩ := Option.map_eq_some_iff.mp found
      cases same
      have := settled.within symbol p named _ _ last
      have := taken p
      rw [if_pos own, before, rest, last] at sizes
      simp only [Option.elim_some] at sizes
      omega
    · exact settled.within symbol p named size filled found
  · have before := settled.left symbol p named hp
    have nonneg := (book symbol).1.askSize_nonneg (p := p)
    have sizes := (book symbol).2 p hp
    show ((m.book.matchOrder ord).2.sideBook symbol).askSize p = _
    simp only [trade, rest, published] at before ⊢
    split_ifs at sizes ⊢ with own
    · have := taken p
      cases last : published symbol p m.log with
      | none =>
        simp only [last, Option.elim_none, Option.map_none] at before ⊢
        omega
      | some e =>
        simp only [last, Option.elim_some, Option.map_some] at before ⊢
        omega
    · omega

/-- The run. -/
theorem trades_settled (trades : List Trade) (comparable : ∀ t ∈ trades, t.Comparable)
    (settled : m.Settled) : (trades.foldl trade m).Settled := by
  induction trades generalizing m with
  | nil => exact settled
  | cons t trades ih =>
    refine ih (fun t' ht' => comparable t' (List.mem_cons_of_mem _ ht')) ?_
    cases t with
    | feed ev => exact settled_feed settled (comparable _ List.mem_cons_self)
    | order ord => exact settled_order settled ord

/-- The level that the invariant leaves at a price. -/
theorem Settled.holdsRest (settled : m.Settled) (named : symbol ≠ []) (p : Double) :
    m.HoldsRest symbol p := by
  obtain ⟨bids, keys, sizes⟩ := settled.asksOnly symbol
  unfold HoldsRest stored
  rw [bids, List.nil_append]
  by_cases hp : p.Comparable
  · rw [OrderedMap.filter_key lt_totalOn keys hp (m.book.sideBook symbol).asks.sorted]
    have left := settled.left symbol p named hp
    have within := settled.within symbol p named
    simp only [SideBook.askSize, OrderedMap.get?, rest] at left
    cases last : published symbol p m.log with
    | none =>
      rw [last, Option.elim_none] at left
      cases found : find Double.lt p (m.book.sideBook symbol).asks.entries with
      | none => rfl
      | some size =>
        have := (settled.asksOnly symbol).get?_pos found
        rw [found, Option.getD_some] at left
        omega
    | some e =>
      obtain ⟨size, filled⟩ := e
      have bounds := within size filled last
      rw [last, Option.elim_some] at left
      cases found : find Double.lt p (m.book.sideBook symbol).asks.entries with
      | none =>
        rw [found, Option.getD_none] at left
        simp only [Option.toList_none]
        rw [if_pos (by omega)]
      | some stored =>
        have := (settled.asksOnly symbol).get?_pos found
        rw [found, Option.getD_some] at left
        simp only [Option.toList_some]
        rw [if_neg (by omega), left, max_eq_left (by omega)]
  · have unquoted : published symbol p m.log = none := by
      by_contra some
      exact hp (settled.quoted symbol p some)
    rw [unquoted]
    refine List.map_eq_nil_iff.mpr (List.filter_eq_nil_iff.mpr fun e he same => ?_)
    exact hp (of_decide_eq_true same ▸ keys e he)

end Market

open Market

/-- After every run of feed events at comparable prices and orders, each level of a named symbol
holds what fills have left of the last event's size, and they never take more than that size, nor
anything when it is not positive. -/
theorem liquidity_ledger (trades : List Trade) (comparable : ∀ t ∈ trades, t.Comparable)
    (symbol : Bytes) (named : symbol ≠ []) (p : Double) :
    (trades.foldl trade start).HoldsRest symbol p ∧
      FillsWithin (trades.foldl trade start).log symbol p := by
  have settled := trades_settled trades comparable start_settled
  exact ⟨settled.holdsRest named p, settled.within symbol p named⟩

/-- An event of the given symbol, price and size. -/
def quote (symbol : Bytes) (price : Double) (size : Int) : Event :=
  ⟨1, 0, 0, 0, setSymbol symbol, price, size, setSrc []⟩

/-- Two quotes and a buy that takes the first and part of the second. -/
theorem liquidity_ledger_on_buy :
    let trades : List Trade := [.feed (quote (bytes "AAPL") (.finite 100) 7),
      .feed (quote (bytes "AAPL") (.finite 101) 5),
      .order ⟨bytes "cli1", .buy, bytes "AAPL", .finite 101, 9⟩]
    (trades.foldl trade start).HoldsRest (bytes "AAPL") (.finite 101) ∧
      FillsWithin (trades.foldl trade start).log (bytes "AAPL") (.finite 101) := by
  intro trades
  refine liquidity_ledger trades ?_ (bytes "AAPL") (by decide) (.finite 101)
  simp [trades, Trade.Comparable, quote, Double.Comparable, Double.isNan]

/-- An event without a symbol is not stored, and no fill total is within a negative size. -/
theorem liquidity_ledger_exceptions :
    ¬ (start.trade (.feed (quote [] (.finite 100) 5))).HoldsRest [] (.finite 100) ∧
    published (bytes "AAPL") (.finite 100)
        (start.trade (.feed (quote (bytes "AAPL") (.finite 100) (-5)))).log = some (-5, 0) ∧
    ¬ ((0 : Int) ≤ -5) := by
  decide

end EtradePipeline
