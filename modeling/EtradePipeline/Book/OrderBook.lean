import EtradePipeline.Book.Event
import EtradePipeline.Kit.OrderedMap
import Mathlib.Data.List.AList

/-! The order book (`order_book.h`, `order_book.cpp`): for each symbol two maps from price to size,
bids best (highest) first and asks best (lowest) first.  Every operation locks the book's mutex for
its whole body, so each is one function from a book to a book. -/

namespace EtradePipeline

open Kit (OrderedMap)

inductive Side where
  | buy
  | sell
  deriving DecidableEq

structure Order where
  clid : Bytes
  side : Side
  symbol : Bytes
  price : Double
  size : Int
  deriving DecidableEq

structure Fill where
  clid : Bytes
  size : Int
  price : Double
  deriving DecidableEq

structure SideBook where
  bids : OrderedMap Double Int Double.gt
  asks : OrderedMap Double Int Double.lt
  deriving DecidableEq

/-- The levels of every symbol that has an entry. -/
structure OrderBook where
  books : AList fun _ : Bytes => SideBook

/-- The levels that an entry is created with. -/
def SideBook.empty : SideBook := ⟨.empty, .empty⟩

def OrderBook.empty : OrderBook := ⟨∅⟩

/-- `impl_->books[symbol]`: the levels of `symbol`, none for a symbol without an entry. -/
def OrderBook.sideBook (ob : OrderBook) (symbol : Bytes) : SideBook :=
  (ob.books.lookup symbol).getD .empty

/-- The book with other levels for `symbol`. -/
def OrderBook.put (ob : OrderBook) (symbol : Bytes) (sb : SideBook) : OrderBook :=
  ⟨ob.books.insert symbol sb⟩

/-- The part of `apply_event` that works on the levels of the event's symbol. -/
def SideBook.applyLevel (sb : SideBook) (price : Double) (size : Int) : SideBook :=
  if size ≤ 0 then { bids := sb.bids.erase price, asks := sb.asks.erase price }
  else
    match sb.bids.entries with
    | (bestBid, _) :: _ =>
      if price.le bestBid then { sb with bids := sb.bids.set price size }
      else { sb with asks := sb.asks.set price size }
    | [] => { sb with asks := sb.asks.set price size }

def OrderBook.applyEvent (ob : OrderBook) (ev : Event) : OrderBook :=
  if ev.symbolStr = [] then ob
  else ob.put ev.symbolStr ((ob.sideBook ev.symbolStr).applyLevel ev.price ev.size)

/-- The matching loop, over the levels from the best on: the fills it pushes, and the levels that it
leaves.  A level without size is erased, a level that the order exhausts is erased, and the last
level touched may be left with a smaller size. -/
def matchLevels (clid : Bytes) : List (Double × Int) → Int → List Fill × List (Double × Int)
  | [], _ => ([], [])
  | (price, avail) :: rest, remaining =>
    if remaining ≤ 0 then ([], (price, avail) :: rest)
    else if avail ≤ 0 then matchLevels clid rest remaining
    else
      let take := min avail remaining
      let (fills, left) := matchLevels clid rest (remaining - take)
      (⟨clid, take, price⟩ :: fills,
        if avail - take = 0 then left else (price, avail - take) :: left)

/-- The loop only drops levels: the prices left are some of the prices before, in order. -/
theorem matchLevels_keys (clid : Bytes) (levels : List (Double × Int)) (remaining : Int) :
    ((matchLevels clid levels remaining).2.map Prod.fst).Sublist (levels.map Prod.fst) := by
  induction levels generalizing remaining with
  | nil => simp [matchLevels]
  | cons level rest ih =>
    obtain ⟨price, avail⟩ := level
    simp only [matchLevels]
    split_ifs with done empty exhausted
    · exact List.Sublist.refl _
    · exact (ih remaining).cons price
    · exact (ih _).cons price
    · exact (ih _).cons_cons price

/-- The matching loop over one side of a symbol's levels. -/
def matchSide {lt : Double → Double → Bool} (levels : OrderedMap Double Int lt) (clid : Bytes)
    (size : Int) : List Fill × OrderedMap Double Int lt :=
  ((matchLevels clid levels.entries size).1,
    levels.withEntries _ (matchLevels_keys clid levels.entries size))

/-- `OrderBook::match_order`: the fills, and the book after them.  The order's price is not read. -/
def OrderBook.matchOrder (ob : OrderBook) (order : Order) : List Fill × OrderBook :=
  match ob.books.lookup order.symbol with
  | none => ([], ob)
  | some sb =>
    if order.size ≤ 0 then ([], ob)
    else
      match order.side with
      | .buy =>
        let (fills, asks) := matchSide sb.asks order.clid order.size
        (fills, ob.put order.symbol { sb with asks })
      | .sell =>
        let (fills, bids) := matchSide sb.bids order.clid order.size
        (fills, ob.put order.symbol { sb with bids })

def OrderBook.setLevel (ob : OrderBook) (symbol : Bytes) (sideBuy : Bool) (price : Double)
    (size : Int) : OrderBook :=
  let sb := ob.sideBook symbol
  if sideBuy then
    if size ≤ 0 then ob.put symbol { sb with bids := sb.bids.erase price }
    else ob.put symbol { sb with bids := sb.bids.set price size }
  else
    if size ≤ 0 then ob.put symbol { sb with asks := sb.asks.erase price }
    else ob.put symbol { sb with asks := sb.asks.set price size }

/-- The best price of a side, a NaN when it has no level. -/
def bestPrice {lt : Double → Double → Bool} (levels : OrderedMap Double Int lt) : Double :=
  (levels.entries.head?).elim .nan Prod.fst

/-- `top_of_book`: the best bid and the best ask. -/
def OrderBook.topOfBook (ob : OrderBook) (symbol : Bytes) : Double × Double :=
  match ob.books.lookup symbol with
  | none => (.nan, .nan)
  | some sb => (bestPrice sb.bids, bestPrice sb.asks)

/-- The levels that an order on `side` trades against, best first. -/
def SideBook.opposite (sb : SideBook) : Side → List (Double × Int)
  | .buy => sb.asks.entries
  | .sell => sb.bids.entries

/-- The levels of `symbol` that an order on `side` trades against, best first. -/
def OrderBook.opposite (ob : OrderBook) (symbol : Bytes) (side : Side) : List (Double × Int) :=
  (ob.sideBook symbol).opposite side

/-- A call of the book's interface that changes it. -/
inductive BookOp where
  | feed (ev : Event)
  | order (ord : Order)
  | setLevel (symbol : Bytes) (sideBuy : Bool) (price : Double) (size : Int)

def OrderBook.after (ob : OrderBook) : BookOp → OrderBook
  | .feed ev => ob.applyEvent ev
  | .order ord => (ob.matchOrder ord).2
  | .setLevel symbol sideBuy price size => ob.setLevel symbol sideBuy price size

/-- A call that a running engine makes, where `set_level` is not used. -/
def BookOp.Live : BookOp → Prop
  | .setLevel .. => False
  | _ => True

/-- A book that feed events and orders lead to from the empty one. -/
def OrderBook.Fed (ob : OrderBook) : Prop :=
  ∃ ops : List BookOp, (∀ op ∈ ops, op.Live) ∧ ops.foldl OrderBook.after .empty = ob

/-- A book that calls of its interface lead to from the empty one. -/
def OrderBook.Reachable (ob : OrderBook) : Prop :=
  ∃ ops : List BookOp, ops.foldl OrderBook.after .empty = ob

/-! ### Reading a book after an operation -/

open Kit.OrderedMap (TotalOn)

theorem lt_totalOn : TotalOn Double.lt Double.Comparable :=
  ⟨fun a _ => Double.lt_irrefl a, fun _ _ ha hb => Double.lt_connected ha hb⟩

theorem gt_totalOn : TotalOn Double.gt Double.Comparable :=
  ⟨fun a _ => Double.lt_irrefl a, fun _ _ ha hb hab hba => Double.lt_connected ha hb hba hab⟩

namespace OrderBook

variable {ob : OrderBook} {symbol other : Bytes} {sb : SideBook}

@[simp] theorem sideBook_empty : OrderBook.empty.sideBook symbol = .empty := rfl

theorem sideBook_put : (ob.put symbol sb).sideBook other =
    if other = symbol then sb else ob.sideBook other := by
  simp only [sideBook, put]
  split_ifs with same
  · rw [same, AList.lookup_insert]; rfl
  · rw [AList.lookup_insert_ne same]

@[simp] theorem sideBook_put_same : (ob.put symbol sb).sideBook symbol = sb := by
  simp [sideBook_put]

/-- What `match_order` does, read off the book: it fills from the opposite levels of the order's
symbol and touches nothing else. -/
theorem matchOrder_cases (ob : OrderBook) (ord : Order) :
    (ord.size ≤ 0 ∨ ob.opposite ord.symbol ord.side = []) ∧ (ob.matchOrder ord).1 = [] ∧
        (∀ symbol, (ob.matchOrder ord).2.sideBook symbol = ob.sideBook symbol) ∨
    0 < ord.size ∧
      (ob.matchOrder ord).1 =
        (matchLevels ord.clid (ob.opposite ord.symbol ord.side) ord.size).1 ∧
      (ob.matchOrder ord).2.opposite ord.symbol ord.side =
        (matchLevels ord.clid (ob.opposite ord.symbol ord.side) ord.size).2 ∧
      (∀ side, side ≠ ord.side →
        (ob.matchOrder ord).2.opposite ord.symbol side = ob.opposite ord.symbol side) ∧
      ∀ symbol, symbol ≠ ord.symbol →
        (ob.matchOrder ord).2.sideBook symbol = ob.sideBook symbol := by
  obtain ⟨clid, side, symbol, price, size⟩ := ord
  cases found : ob.books.lookup symbol with
  | none =>
    left
    have none : ob.sideBook symbol = .empty := by simp [sideBook, found]
    simp only [matchOrder, found, opposite, none]
    refine ⟨.inr ?_, trivial, fun _ => trivial⟩
    cases side <;> rfl
  | some sb =>
    have levels : ob.sideBook symbol = sb := by simp [sideBook, found]
    by_cases positive : size ≤ 0
    · exact .inl ⟨.inl positive, by simp [matchOrder, found, positive],
        by simp [matchOrder, found, positive]⟩
    · right
      refine ⟨by simpa using positive, ?_⟩
      cases side <;> simp only [matchOrder, found, positive, if_false, opposite, levels,
        SideBook.opposite, matchSide, sideBook_put_same, OrderedMap.withEntries_entries, true_and]
      · refine ⟨fun side ne => ?_, fun other ne => by rw [sideBook_put, if_neg ne]⟩
        cases side
        · exact absurd rfl ne
        · rfl
      · refine ⟨fun side ne => ?_, fun other ne => by rw [sideBook_put, if_neg ne]⟩
        cases side
        · rfl
        · exact absurd rfl ne

/-- An order adds no level to either side of any symbol. -/
theorem matchOrder_keys (ob : OrderBook) (ord : Order) (symbol : Bytes) (side : Side) :
    (((ob.matchOrder ord).2.opposite symbol side).map Prod.fst).Sublist
      ((ob.opposite symbol side).map Prod.fst) := by
  rcases ob.matchOrder_cases ord with ⟨-, -, same⟩ | ⟨-, -, walked, kept, others⟩
  · rw [opposite, same]
    exact List.Sublist.refl _
  · by_cases own : symbol = ord.symbol
    · subst own
      by_cases facing : side = ord.side
      · rw [facing, walked]
        exact matchLevels_keys ..
      · rw [kept side facing]
    · rw [opposite, others symbol own]
      exact List.Sublist.refl _

end OrderBook

end EtradePipeline
