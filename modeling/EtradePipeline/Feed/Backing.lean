import EtradePipeline.Book.Greedy
import EtradePipeline.Feed.Frame

/-! The feed backs what orders take, whatever prices its events have.  For each symbol the asks and
the fills together are no more than the events have put on offer, and each of them is at the price
of an event for the symbol. -/

namespace EtradePipeline

open Kit (OrderedMap)
open Kit.OrderedMap (assign discard mem_assign)

/-- The quantity that events put on offer for a symbol, an event without a positive size none. -/
def offered (symbol : Bytes) (events : List Event) : Int :=
  (events.map fun ev => if ev.symbolStr = symbol then max ev.size 0 else 0).sum

/-- The quantity that deals trade in a symbol. -/
def sold (symbol : Bytes) (deals : List (Order × List Fill)) : Int :=
  (deals.map fun d => if d.1.symbol = symbol then fillTotal d.2 else 0).sum

/-- Some event for the symbol has the price. -/
def QuotedAt (events : List Event) (symbol : Bytes) (p : Double) : Prop :=
  ∃ ev ∈ events, ev.symbolStr = symbol ∧ ev.price = p

def Record.event? : Record → Option Event
  | .quoted ev => some ev
  | .traded _ _ => none

def Record.deal? : Record → Option (Order × List Fill)
  | .quoted _ => none
  | .traded ord fills => some (ord, fills)

namespace Market

/-- The events that have reached the book, latest first. -/
def events (m : Market) : List Event := m.log.filterMap Record.event?

/-- The orders that have reached the book with their fills, latest first. -/
def deals (m : Market) : List (Order × List Fill) := m.log.filterMap Record.deal?

/-- The quantity that the asks of a symbol hold. -/
def onOffer (m : Market) (symbol : Bytes) : Int := levelTotal (m.book.sideBook symbol).asks.entries

/-- The invariant of a run. -/
structure Backed (m : Market) : Prop where
  fed : m.book.Fed
  levels : ∀ symbol, ∀ e ∈ (m.book.sideBook symbol).asks.entries, QuotedAt m.events symbol e.1
  fills : ∀ d ∈ m.deals, ∀ f ∈ d.2, QuotedAt m.events d.1.symbol f.price
  total : ∀ symbol, m.onOffer symbol + sold symbol m.deals ≤ offered symbol m.events
  deals : ∀ d ∈ m.deals, (∀ f ∈ d.2, 0 < f.size ∧ f.clid = d.1.clid) ∧
    fillTotal d.2 ≤ max d.1.size 0 ∧ (d.1.side = .sell → d.2 = [])

end Market

theorem offered_cons (symbol : Bytes) (ev : Event) (events : List Event) :
    offered symbol (ev :: events) =
      (if ev.symbolStr = symbol then max ev.size 0 else 0) + offered symbol events :=
  List.sum_cons

theorem sold_cons (symbol : Bytes) (d : Order × List Fill) (deals : List (Order × List Fill)) :
    sold symbol (d :: deals) = (if d.1.symbol = symbol then fillTotal d.2 else 0) +
      sold symbol deals :=
  List.sum_cons

theorem QuotedAt.mono {events more : List Event} {symbol : Bytes} {p : Double}
    (quoted : QuotedAt events symbol p) (sub : events ⊆ more) : QuotedAt more symbol p := by
  obtain ⟨ev, member, own, price⟩ := quoted
  exact ⟨ev, sub member, own, price⟩

/-! ### The levels -/

section Levels

variable {lt : Double → Double → Bool} {levels : List (Double × Int)}

theorem levelTotal_assign_le (p : Double) (size : Int) (positive : PositiveLevels levels) :
    levelTotal (assign lt p size levels) ≤ levelTotal levels + size := by
  induction levels with
  | nil => simp [assign]
  | cons e rest ih =>
    obtain ⟨stocked, others⟩ := positive.tail
    have := ih others
    simp only [assign]
    split_ifs <;> simp only [levelTotal_cons] <;> omega

theorem levelTotal_discard_le (p : Double) (positive : PositiveLevels levels) :
    levelTotal (discard lt p levels) ≤ levelTotal levels := by
  refine (List.filter_sublist.map Prod.snd).sum_le_sum fun size member => ?_
  obtain ⟨e, he, rfl⟩ := List.mem_map.mp member
  exact (positive e he).le

/-- What the loop fills is what the levels lose. -/
theorem matchLevels_levelTotal (clid : Bytes) (n : Int) (positive : PositiveLevels levels) :
    levelTotal (matchLevels clid levels n).2 + fillTotal (matchLevels clid levels n).1 =
      levelTotal levels := by
  revert positive
  refine matchLevels_induction clid (P := fun levels _ r => PositiveLevels levels →
    levelTotal r.2 + fillTotal r.1 = levelTotal levels) ?stop ?nil ?skip ?exhaust ?finish levels n
  case stop | nil => intros; simp
  case skip =>
    intro _ avail _ _ _ empty _ positive
    have : 0 < avail := positive.tail.1
    omega
  case exhaust =>
    intro _ _ _ _ _ _ ih positive
    have := ih positive.tail.2
    simp only [levelTotal_cons, fillTotal_cons]
    omega
  case finish =>
    intro _ _ _ _ _ _ _
    simp only [levelTotal_cons, fillTotal_cons, fillTotal_nil]
    omega

end Levels

theorem levelTotal_asksAfter_le {asks : List (Double × Int)} (p : Double) (size : Int)
    (positive : PositiveLevels asks) :
    levelTotal (asksAfter asks p size) ≤ levelTotal asks + max size 0 := by
  unfold asksAfter
  split_ifs with none
  · rw [max_eq_right none, add_zero]
    exact levelTotal_discard_le p positive
  · rw [max_eq_left (not_le.mp none).le]
    exact levelTotal_assign_le p size positive

theorem key_of_mem_asksAfter {asks : List (Double × Int)} {p : Double} {size : Int}
    {e : Double × Int}
    (member : e ∈ asksAfter asks p size) : e.1 = p ∨ e.1 ∈ asks.map Prod.fst := by
  unfold asksAfter at member
  split_ifs at member
  · exact .inr (List.mem_map_of_mem (List.mem_filter.mp member).1)
  · rcases mem_assign member with old | ⟨-, key⟩
    · exact .inr (List.mem_map_of_mem old)
    · exact key

/-! ### The book -/

namespace OrderBook

variable {ob : OrderBook}

theorem Fed.after (fed : ob.Fed) (op : BookOp) (live : op.Live) : (ob.after op).Fed := by
  obtain ⟨ops, lives, rfl⟩ := fed
  refine ⟨ops ++ [op], ?_, by rw [List.foldl_append]; rfl⟩
  exact List.forall_mem_append.mpr ⟨lives, List.forall_mem_singleton.mpr live⟩

theorem empty_fed : OrderBook.empty.Fed := ⟨[], List.forall_mem_nil _, rfl⟩

/-- An event changes the asks of its symbol, when it has one, and nothing else. -/
theorem Fed.applyEvent_asks (fed : ob.Fed) (ev : Event) (symbol : Bytes) :
    ((ob.applyEvent ev).sideBook symbol).asks.entries =
      if ev.symbolStr = symbol ∧ symbol ≠ [] then
        asksAfter (ob.sideBook symbol).asks.entries ev.price ev.size
      else (ob.sideBook symbol).asks.entries := by
  unfold applyEvent
  by_cases own : ev.symbolStr = symbol
  · subst own
    by_cases unnamed : ev.symbolStr = []
    · simp [unnamed]
    · rw [if_neg unnamed, sideBook_put_same, if_pos ⟨rfl, unnamed⟩]
      exact (applyLevel_asks (fed.no_bids ev.symbolStr) ev.price ev.size).2
  · have elsewhere : ¬ (ev.symbolStr = symbol ∧ symbol ≠ []) := fun h => own h.1
    rw [if_neg elsewhere]
    split_ifs
    · rfl
    · rw [sideBook_put, if_neg (Ne.symm own)]

/-- An order to sell finds nothing, and what an order to buy is filled is what the asks of its
symbol lose. -/
theorem Fed.matchOrder_cases (fed : ob.Fed) (ord : Order) (symbol : Bytes) :
    (ord.side = .sell → (ob.matchOrder ord).1 = []) ∧
    levelTotal ((ob.matchOrder ord).2.sideBook symbol).asks.entries +
        (if ord.symbol = symbol then fillTotal (ob.matchOrder ord).1 else 0) =
      levelTotal (ob.sideBook symbol).asks.entries := by
  have bids : ob.opposite ord.symbol .sell = [] := fed.no_bids ord.symbol
  have sells : ord.side = .sell → (ob.matchOrder ord).1 = [] := by
    intro side
    rw [matchOrder_fills, side, bids]
    rfl
  refine ⟨sells, ?_⟩
  by_cases own : ord.symbol = symbol
  · subst own
    rw [if_pos rfl]
    have asks : ((ob.matchOrder ord).2.sideBook ord.symbol).asks.entries =
        (ob.matchOrder ord).2.opposite ord.symbol .buy := rfl
    rw [asks, matchOrder_opposite]
    cases side : ord.side with
    | sell => simp [sells side, opposite, SideBook.opposite]
    | buy =>
      rw [if_pos rfl, matchOrder_fills, side]
      exact matchLevels_levelTotal ord.clid ord.size (fed.positive.opposite ord.symbol .buy)
  · rw [if_neg own, matchOrder_others ob ord (Ne.symm own), add_zero]

end OrderBook

/-! ### The run -/

namespace Market

variable {m : Market}

theorem start_backed : start.Backed :=
  ⟨OrderBook.empty_fed, fun _ => List.forall_mem_nil _, List.forall_mem_nil _, fun _ => le_refl 0,
    List.forall_mem_nil _⟩

theorem backed_feed (backed : m.Backed) (ev : Event) : (m.trade (.feed ev)).Backed := by
  have events : (m.trade (.feed ev)).events = ev :: m.events := rfl
  have deals : (m.trade (.feed ev)).deals = m.deals := rfl
  have later : m.events ⊆ (m.trade (.feed ev)).events := List.subset_cons_self _ _
  have asks := backed.fed.applyEvent_asks ev
  refine ⟨backed.fed.after (.feed ev) trivial, fun symbol e member => ?_, fun d hd f hf => ?_,
    fun symbol => ?_, backed.deals⟩
  · change e ∈ ((m.book.applyEvent ev).sideBook symbol).asks.entries at member
    rw [asks] at member
    split_ifs at member with own
    · rcases key_of_mem_asksAfter member with key | key
      · exact ⟨ev, List.mem_cons_self, own.1, key.symm⟩
      · obtain ⟨e', member, same⟩ := List.mem_map.mp key
        exact same ▸ (backed.levels symbol e' member).mono later
    · exact (backed.levels symbol e member).mono later
  · exact (backed.fills d hd f hf).mono later
  · have total := backed.total symbol
    have positive : PositiveLevels (m.book.sideBook symbol).asks.entries :=
      backed.fed.positive.opposite symbol .buy
    have grown := levelTotal_asksAfter_le ev.price ev.size positive
    have nonneg : 0 ≤ max ev.size 0 := le_max_right _ _
    rw [events, deals, offered_cons]
    unfold onOffer at total ⊢
    change levelTotal ((m.book.applyEvent ev).sideBook symbol).asks.entries + _ ≤ _
    rw [asks]
    split_ifs with named own own <;> first | omega | exact absurd named.1 own

theorem backed_order (backed : m.Backed) (ord : Order) : (m.trade (.order ord)).Backed := by
  have deals : (m.trade (.order ord)).deals = (ord, (m.book.matchOrder ord).1) :: m.deals := rfl
  have events : (m.trade (.order ord)).events = m.events := rfl
  refine ⟨backed.fed.after (.order ord) trivial, fun symbol e member =>
    ?_, ?_, fun symbol => ?_, ?_⟩
  · have key := (m.book.matchOrder_keys ord symbol .buy).subset (List.mem_map_of_mem member)
    obtain ⟨e', member, same⟩ := List.mem_map.mp key
    exact same ▸ backed.levels symbol e' member
  · rw [deals, events]
    refine List.forall_mem_cons.mpr ⟨fun f hf => ?_, backed.fills⟩
    simp only at hf
    cases side : ord.side with
    | sell =>
      rw [(backed.fed.matchOrder_cases ord ord.symbol).1 side] at hf
      cases hf
    | buy =>
      rw [OrderBook.matchOrder_fills, side] at hf
      obtain ⟨e, member, price⟩ := List.mem_map.mp (matchLevels_fill _ _ _ f hf).2.2
      exact price ▸ backed.levels ord.symbol e member
  · have total := backed.total symbol
    have moved := (backed.fed.matchOrder_cases ord symbol).2
    rw [deals, events, sold_cons]
    unfold onOffer at total ⊢
    change levelTotal ((m.book.matchOrder ord).2.sideBook symbol).asks.entries + _ ≤ _
    simp only at moved ⊢
    omega
  · rw [deals]
    exact List.forall_mem_cons.mpr ⟨⟨m.book.matchOrder_fill ord, m.book.matchOrder_total ord,
      (backed.fed.matchOrder_cases ord ord.symbol).1⟩, backed.deals⟩

/-- The run. -/
theorem trades_backed (trades : List Trade) (backed : m.Backed) :
    (trades.foldl trade m).Backed := by
  induction trades generalizing m with
  | nil => exact backed
  | cons t trades ih =>
    cases t with
    | feed ev => exact ih (backed_feed backed ev)
    | order ord => exact ih (backed_order backed ord)

end Market

end EtradePipeline
