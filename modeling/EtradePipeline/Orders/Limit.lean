import EtradePipeline.Orders.Calls
import Mathlib.Algebra.Order.BigOperators.Group.List

/-! The limit price of an order.  `match_order` never reads it: it walks the opposite levels from
the best on until the order is filled, so whether the limit is honoured depends on whether the walk
ends before the first level beyond it. -/

namespace EtradePipeline

/-- A price that the order's limit allows: at most the limit for a buy, at least for a sell. -/
def Order.within (ord : Order) (price : Double) : Bool :=
  match ord.side with
  | .buy => price.le ord.price
  | .sell => ord.price.le price

/-- No fill is beyond the order's limit, and no level beyond it is shrunk or erased. -/
def HonoursLimit (ord : Order) (before : OrderBook) (fills : List Fill) (after : OrderBook) :
    Prop :=
  (∀ f ∈ fills, ord.within f.price = true) ∧
  ∀ symbol side, ∀ e ∈ before.opposite symbol side, ord.within e.1 = false →
    e ∈ after.opposite symbol side

/-- The size on the levels that the order's limit allows. -/
def Order.quantityWithin (ord : Order) (levels : List (Double × Int)) : Int :=
  ((levels.filter fun e => ord.within e.1).map Prod.snd).sum

/-- The order's limit allows every level that it can trade against, or the levels that it allows
hold the order's size. -/
def EnoughWithin (ob : OrderBook) (ord : Order) : Prop :=
  (∀ e ∈ ob.opposite ord.symbol ord.side, ord.within e.1 = true) ∨
  ord.size ≤ ord.quantityWithin (ob.opposite ord.symbol ord.side)

instance (ob : OrderBook) (ord : Order) : Decidable (EnoughWithin ob ord) :=
  inferInstanceAs (Decidable (_ ∨ _))

namespace Order

variable {ord : Order} {levels rest : List (Double × Int)} {e : Double × Int}

/-- On a book side, a limit that allows a level allows every better one. -/
theorem within_downward (ob : OrderBook) (ord : Order) :
    (ob.opposite ord.symbol ord.side).Pairwise fun a b =>
      ord.within b.1 = true → ord.within a.1 = true := by
  obtain ⟨clid, side, symbol, price, size⟩ := ord
  cases side
  · exact (ob.sideBook symbol).asks.sorted.imp fun better => Double.le_of_lt_of_le better
  · refine (ob.sideBook symbol).bids.sorted.imp fun better allowed => ?_
    exact Double.le_of_le_of_lt allowed better

@[simp] theorem quantityWithin_nil : ord.quantityWithin [] = 0 := rfl

theorem quantityWithin_cons_of_within (allowed : ord.within e.1 = true) :
    ord.quantityWithin (e :: rest) = e.2 + ord.quantityWithin rest := by
  simp [quantityWithin, allowed]

theorem quantityWithin_nonneg (positive : PositiveLevels levels) :
    0 ≤ ord.quantityWithin levels := by
  apply List.sum_nonneg
  intro n hn
  obtain ⟨e, he, rfl⟩ := List.mem_map.mp hn
  exact (positive e (List.mem_filter.mp he).1).le

theorem quantityWithin_eq_zero
    (downward : (e :: rest).Pairwise fun a b => ord.within b.1 = true → ord.within a.1 = true)
    (beyond : ord.within e.1 = false) : ord.quantityWithin (e :: rest) = 0 := by
  have none : (e :: rest).filter (fun e => ord.within e.1) = [] := by
    refine List.filter_eq_nil_iff.mpr fun x hx allowed => ?_
    rcases List.mem_cons.mp hx with rfl | hx
    · simp [beyond] at allowed
    · have := (List.pairwise_cons.mp downward).1 x hx allowed
      simp [beyond] at this
  rw [quantityWithin, none]
  rfl

/-- When the best level is beyond the limit, there is not enough within it for any quantity. -/
theorem best_within {n : Int} (asked : 0 < n)
    (downward : (e :: rest).Pairwise fun a b => ord.within b.1 = true → ord.within a.1 = true)
    (enough : (∀ x ∈ e :: rest, ord.within x.1 = true) ∨ n ≤ ord.quantityWithin (e :: rest)) :
    ord.within e.1 = true := by
  rcases enough with all | enough
  · exact all e List.mem_cons_self
  · by_contra beyond
    rw [quantityWithin_eq_zero downward (by simpa using beyond)] at enough
    omega

end Order

section Walk

variable {ord : Order} {clid : Bytes} {levels : List (Double × Int)} {n : Int}

theorem matchLevels_within (positive : PositiveLevels levels)
    (downward : levels.Pairwise fun a b => ord.within b.1 = true → ord.within a.1 = true)
    (enough : (∀ e ∈ levels, ord.within e.1 = true) ∨ n ≤ ord.quantityWithin levels) :
    (∀ f ∈ (matchLevels clid levels n).1, ord.within f.price = true) ∧
      ∀ e ∈ levels, ord.within e.1 = false → e ∈ (matchLevels clid levels n).2 := by
  revert positive downward enough
  refine matchLevels_induction clid
    (P := fun levels n r => PositiveLevels levels → levels.Pairwise _ →
      ((∀ e ∈ levels, ord.within e.1 = true) ∨ n ≤ ord.quantityWithin levels) →
      (∀ f ∈ r.1, ord.within f.price = true) ∧ ∀ e ∈ levels, ord.within e.1 = false → e ∈ r.2)
    ?stop ?nil ?skip ?exhaust ?finish levels n
  case stop => intro _ _ _ _ _ _; exact ⟨by simp, fun e he _ => he⟩
  case nil => simp
  case skip =>
    intro _ _ _ _ _ empty _ positive
    have := positive _ List.mem_cons_self
    simp only at this
    omega
  case exhaust =>
    intro price avail rest n stocked covers ih positive downward enough
    have best : ord.within price = true :=
      Order.best_within (e := (price, avail)) (by omega) downward enough
    have others : (∀ e ∈ rest, ord.within e.1 = true) ∨ n - avail ≤ ord.quantityWithin rest := by
      refine enough.imp (fun all e he => all e (List.mem_cons_of_mem _ he)) fun enough => ?_
      rw [Order.quantityWithin_cons_of_within best] at enough
      simp only at enough
      omega
    obtain ⟨fills, kept⟩ := ih (fun e he => positive e (List.mem_cons_of_mem _ he))
      (List.pairwise_cons.mp downward).2 others
    constructor
    · intro f hf
      rcases List.mem_cons.mp hf with rfl | hf
      · exact best
      · exact fills f hf
    · intro e he beyond
      rcases List.mem_cons.mp he with rfl | he
      · simp [best] at beyond
      · exact kept e he beyond
  case finish =>
    intro price avail rest n more _ _ downward enough
    have best : ord.within price = true :=
      Order.best_within (e := (price, avail)) more downward enough
    constructor
    · intro f hf
      obtain rfl := List.mem_singleton.mp hf
      exact best
    · intro e he beyond
      rcases List.mem_cons.mp he with rfl | he
      · simp [best] at beyond
      · exact List.mem_cons_of_mem _ he

theorem enough_of_matchLevels_within (positive : PositiveLevels levels)
    (fills : ∀ f ∈ (matchLevels clid levels n).1, ord.within f.price = true) :
    (∀ e ∈ levels, ord.within e.1 = true) ∨ n ≤ ord.quantityWithin levels := by
  revert positive fills
  refine matchLevels_induction clid
    (P := fun levels n r => PositiveLevels levels → (∀ f ∈ r.1, ord.within f.price = true) →
      (∀ e ∈ levels, ord.within e.1 = true) ∨ n ≤ ord.quantityWithin levels)
    ?stop ?nil ?skip ?exhaust ?finish levels n
  case stop =>
    intro _ _ done positive _
    exact .inr (done.trans (Order.quantityWithin_nonneg positive))
  case nil => intro _ _ _ _; exact .inl (by simp)
  case skip =>
    intro _ _ _ _ _ empty _ positive
    have := positive _ List.mem_cons_self
    simp only at this
    omega
  case exhaust =>
    intro price avail rest n stocked covers ih positive fills
    have best : ord.within price = true := fills _ List.mem_cons_self
    refine (ih (fun e he => positive e (List.mem_cons_of_mem _ he))
      fun f hf => fills f (List.mem_cons_of_mem _ hf)).imp (fun all e he => ?_) fun enough => ?_
    · rcases List.mem_cons.mp he with rfl | he
      · exact best
      · exact all e he
    · rw [Order.quantityWithin_cons_of_within (e := (price, avail)) best]
      simp only
      omega
  case finish =>
    intro price avail rest n _ short positive fills
    have best : ord.within price = true := fills _ List.mem_cons_self
    have others : 0 ≤ ord.quantityWithin rest :=
      Order.quantityWithin_nonneg fun e he => positive e (List.mem_cons_of_mem (price, avail) he)
    right
    rw [Order.quantityWithin_cons_of_within (e := (price, avail)) best]
    simp only
    omega

end Walk

/-- `match_order` honours the limit of an order exactly when there is enough within it. -/
theorem matchOrder_honours_iff {ob : OrderBook} (positive : ob.Positive) (ord : Order) :
    HonoursLimit ord ob (ob.matchOrder ord).1 (ob.matchOrder ord).2 ↔ EnoughWithin ob ord := by
  have levels := positive.opposite ord.symbol ord.side
  rcases ob.matchOrder_cases ord with ⟨stop, none, same⟩ | ⟨-, fills, walked, kept, others⟩
  · refine iff_of_true ⟨by simp [none], fun symbol side e he _ => ?_⟩ ?_
    · simpa [OrderBook.opposite, same symbol] using he
    · rcases stop with done | empty
      · exact .inr (done.trans (Order.quantityWithin_nonneg levels))
      · exact .inl (by simp [empty])
  · constructor
    · intro honoured
      exact enough_of_matchLevels_within levels (fills ▸ honoured.1)
    · intro enough
      obtain ⟨allowed, left⟩ :=
        @matchLevels_within ord ord.clid _ _ levels (ord.within_downward ob) enough
      refine ⟨fills ▸ allowed, fun symbol side e he beyond => ?_⟩
      by_cases own : symbol = ord.symbol
      · subst own
        by_cases traded : side = ord.side
        · subst traded
          rw [walked]
          exact left e he beyond
        · rw [kept side traded]
          exact he
      · simpa [OrderBook.opposite, others symbol own] using he

/-- The limit of an order is honoured, by `match_order` and by `submit_order` on a manager with that
book, exactly when there is enough within it or the manager rejects the order. -/
theorem limit_honoured_iff (ob : OrderBook) (reached : ob.Reachable) (ord : Order) :
    (HonoursLimit ord ob (ob.matchOrder ord).1 (ob.matchOrder ord).2 ↔ EnoughWithin ob ord) ∧
    ∀ m : OrderManager, m.ob = some ob →
      ∃ after, (m.submitOrder ord).2.ob = some after ∧
        (HonoursLimit ord ob (m.submitOrder ord).1.fills after ↔
          m.checkOrder ord ≠ none ∨ EnoughWithin ob ord) := by
  refine ⟨matchOrder_honours_iff reached.positive ord, fun m attached => ?_⟩
  rcases m.submitOrder_cases ord with ⟨reason, rejected, result⟩ | ⟨ob', passed, hob, -, result⟩
  · refine ⟨ob, by rw [result]; exact attached, iff_of_true ?_ (.inl (by simp [rejected]))⟩
    rw [result]
    exact ⟨by simp, fun symbol side e he _ => he⟩
  · obtain rfl : ob = ob' := by simpa [attached] using hob
    obtain ⟨submitted, book, -⟩ := result
    refine ⟨_, book, ?_⟩
    rw [submitted, matchOrder_honours_iff reached.positive ord]
    simp [passed]

/-- The book after two feed quotes for one symbol: 100 at 100.00 and 50 at 101.00. -/
def quotedBook : OrderBook :=
  [BookOp.feed ⟨1, 0, 0, 0, setSymbol (bytes "AAPL"), .finite 100, 100, setSrc []⟩,
    BookOp.feed ⟨2, 0, 0, 0, setSymbol (bytes "AAPL"), .finite 101, 50, setSrc []⟩].foldl
    OrderBook.after .empty

/-- A buy at a limit of 100.00 against `quotedBook`. -/
def buyAtBest (size : Int) : Order := ⟨bytes "cli1", .buy, bytes "AAPL", .finite 100, size⟩

theorem limit_honoured_iff_at_quotes :
    HonoursLimit (buyAtBest 80) quotedBook (quotedBook.matchOrder (buyAtBest 80)).1
      (quotedBook.matchOrder (buyAtBest 80)).2 :=
  (limit_honoured_iff quotedBook ⟨_, rfl⟩ (buyAtBest 80)).1.mpr (by decide)

/-- A buy of 120 at a limit of 100.00 takes 20 at 101.00. -/
theorem limit_not_honoured :
    quotedBook.Reachable ∧ (buyAtBest 120).price.Comparable ∧ 0 < (buyAtBest 120).size ∧
    (quotedBook.matchOrder (buyAtBest 120)).1 =
      [⟨bytes "cli1", 100, .finite 100⟩, ⟨bytes "cli1", 20, .finite 101⟩] ∧
    ¬ HonoursLimit (buyAtBest 120) quotedBook (quotedBook.matchOrder (buyAtBest 120)).1
      (quotedBook.matchOrder (buyAtBest 120)).2 := by
  refine ⟨⟨_, rfl⟩, by decide, by decide, by decide, fun honoured => ?_⟩
  have := honoured.1 ⟨bytes "cli1", 20, .finite 101⟩ (by decide)
  exact absurd this (by decide)

end EtradePipeline
