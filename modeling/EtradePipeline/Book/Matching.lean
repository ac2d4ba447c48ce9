import EtradePipeline.Book.OrderBook
import Mathlib.Algebra.Order.BigOperators.Group.List

/-! The matching loop: what it fills and what it leaves.  Every fact is an induction over the levels
with the remaining quantity general, one case for each branch of the loop. -/

namespace EtradePipeline

/-- The quantity that a list of fills trades. -/
def fillTotal (fills : List Fill) : Int := (fills.map Fill.size).sum

@[simp] theorem fillTotal_nil : fillTotal [] = 0 := rfl

@[simp] theorem fillTotal_cons (f : Fill) (fills : List Fill) :
    fillTotal (f :: fills) = f.size + fillTotal fills := by simp [fillTotal]

@[simp] theorem fillTotal_append (fills more : List Fill) :
    fillTotal (fills ++ more) = fillTotal fills + fillTotal more := by simp [fillTotal]

theorem fillTotal_perm {fills more : List Fill} (perm : fills.Perm more) :
    fillTotal fills = fillTotal more := (perm.map Fill.size).sum_eq

/-- Every level has a positive size. -/
def PositiveLevels (levels : List (Double × Int)) : Prop := ∀ e ∈ levels, 0 < e.2

section Loop

variable {clid : Bytes} {price : Double} {avail remaining : Int} {rest levels : List (Double × Int)}

theorem matchLevels_stop (done : remaining ≤ 0) :
    matchLevels clid levels remaining = ([], levels) := by
  cases levels with
  | nil => rfl
  | cons level rest => obtain ⟨price, avail⟩ := level; simp [matchLevels, done]

theorem matchLevels_skip (more : 0 < remaining) (empty : avail ≤ 0) :
    matchLevels clid ((price, avail) :: rest) remaining = matchLevels clid rest remaining := by
  simp [matchLevels, not_le.mpr more, empty]

theorem matchLevels_exhaust (stocked : 0 < avail) (enough : avail ≤ remaining) :
    matchLevels clid ((price, avail) :: rest) remaining =
      (⟨clid, avail, price⟩ :: (matchLevels clid rest (remaining - avail)).1,
        (matchLevels clid rest (remaining - avail)).2) := by
  have more : 0 < remaining := by omega
  simp [matchLevels, not_le.mpr more, not_le.mpr stocked, min_eq_left enough]

theorem matchLevels_finish (more : 0 < remaining) (short : remaining < avail) :
    matchLevels clid ((price, avail) :: rest) remaining =
      ([⟨clid, remaining, price⟩], (price, avail - remaining) :: rest) := by
  have stocked : 0 < avail := by omega
  have left : avail - remaining ≠ 0 := by omega
  simp [matchLevels, not_le.mpr more, not_le.mpr stocked, min_eq_right short.le,
    matchLevels_stop (le_refl 0), left]

/-- Induction over the loop: a property of the levels, the remaining quantity and the result holds
when it does in each branch. -/
theorem matchLevels_induction (clid : Bytes)
    {P : List (Double × Int) → Int → List Fill × List (Double × Int) → Prop}
    (stop : ∀ levels remaining, remaining ≤ 0 → P levels remaining ([], levels))
    (nil : ∀ remaining, 0 < remaining → P [] remaining ([], []))
    (skip : ∀ price avail rest remaining, 0 < remaining → avail ≤ 0 →
      P rest remaining (matchLevels clid rest remaining) →
      P ((price, avail) :: rest) remaining (matchLevels clid rest remaining))
    (exhaust : ∀ price avail rest remaining, 0 < avail → avail ≤ remaining →
      P rest (remaining - avail) (matchLevels clid rest (remaining - avail)) →
      P ((price, avail) :: rest) remaining
        (⟨clid, avail, price⟩ :: (matchLevels clid rest (remaining - avail)).1,
          (matchLevels clid rest (remaining - avail)).2))
    (finish : ∀ price avail rest remaining, 0 < remaining → remaining < avail →
      P ((price, avail) :: rest) remaining
        ([⟨clid, remaining, price⟩], (price, avail - remaining) :: rest))
    (levels : List (Double × Int)) (remaining : Int) :
    P levels remaining (matchLevels clid levels remaining) := by
  induction levels generalizing remaining with
  | nil =>
    rcases le_or_gt remaining 0 with done | more
    · rw [matchLevels_stop done]; exact stop [] remaining done
    · exact nil remaining more
  | cons level rest ih =>
    obtain ⟨price, avail⟩ := level
    rcases le_or_gt remaining 0 with done | more
    · rw [matchLevels_stop done]; exact stop _ remaining done
    rcases le_or_gt avail 0 with empty | stocked
    · rw [matchLevels_skip more empty]; exact skip _ _ _ _ more empty (ih remaining)
    rcases le_or_gt avail remaining with enough | short
    · rw [matchLevels_exhaust stocked enough]; exact exhaust _ _ _ _ stocked enough (ih _)
    · rw [matchLevels_finish more short]; exact finish _ _ _ _ more short

theorem matchLevels_total (clid : Bytes) (levels : List (Double × Int)) (remaining : Int)
    (asked : 0 ≤ remaining) : fillTotal (matchLevels clid levels remaining).1 ≤ remaining := by
  revert asked
  refine matchLevels_induction clid (P := fun _ n r => 0 ≤ n → fillTotal r.1 ≤ n)
    ?stop ?nil ?skip ?exhaust ?finish levels remaining
  case stop => intro _ n _ asked; simpa using asked
  case nil => intro n more _; simpa using more.le
  case skip => intro _ _ _ n more _ ih _; exact ih more.le
  case exhaust =>
    intro _ avail _ n _ enough ih _
    have := ih (by omega)
    rw [fillTotal_cons]
    show avail + _ ≤ n
    omega
  case finish => intro _ _ _ n _ _ _; simp

theorem matchLevels_fill (clid : Bytes) (levels : List (Double × Int)) (remaining : Int) :
    ∀ f ∈ (matchLevels clid levels remaining).1,
      0 < f.size ∧ f.clid = clid ∧ f.price ∈ levels.map Prod.fst := by
  refine matchLevels_induction clid
    (P := fun levels _ r => ∀ f ∈ r.1, 0 < f.size ∧ f.clid = clid ∧ f.price ∈ levels.map Prod.fst)
    ?stop ?nil ?skip ?exhaust ?finish levels remaining
  case stop | nil => intros; contradiction
  case skip =>
    intro _ _ _ _ _ _ ih f hf
    obtain ⟨size, own, price⟩ := ih f hf
    exact ⟨size, own, List.mem_cons_of_mem _ price⟩
  case exhaust =>
    intro _ avail _ _ stocked _ ih f hf
    rcases List.mem_cons.mp hf with rfl | hf
    · exact ⟨stocked, rfl, List.mem_cons_self⟩
    · obtain ⟨size, own, price⟩ := ih f hf
      exact ⟨size, own, List.mem_cons_of_mem _ price⟩
  case finish =>
    intro _ _ _ _ more _ f hf
    obtain rfl := List.mem_singleton.mp hf
    exact ⟨more, rfl, List.mem_cons_self⟩

theorem fillTotal_nonneg {fills : List Fill} (sizes : ∀ f ∈ fills, 0 < f.size) :
    0 ≤ fillTotal fills := by
  induction fills with
  | nil => simp
  | cons f fills ih =>
    have := sizes f List.mem_cons_self
    have := ih fun g hg => sizes g (List.mem_cons_of_mem _ hg)
    rw [fillTotal_cons]
    omega

theorem fillTotal_pos_iff {fills : List Fill} (sizes : ∀ f ∈ fills, 0 < f.size) :
    0 < fillTotal fills ↔ fills ≠ [] := by
  cases fills with
  | nil => simp
  | cons f fills =>
    have := sizes f List.mem_cons_self
    have := fillTotal_nonneg fun g hg => sizes g (List.mem_cons_of_mem _ hg)
    rw [fillTotal_cons]
    simp
    omega

/-- An order fills nothing exactly when no level has any size. -/
theorem matchLevels_eq_nil_iff (clid : Bytes) (levels : List (Double × Int)) (remaining : Int)
    (asked : 0 < remaining) :
    (matchLevels clid levels remaining).1 = [] ↔ ∀ e ∈ levels, e.2 ≤ 0 := by
  revert asked
  refine matchLevels_induction clid (P := fun levels n r => 0 < n →
    (r.1 = [] ↔ ∀ e ∈ levels, e.2 ≤ 0))
    ?stop ?nil ?skip ?exhaust ?finish levels remaining
  case stop => intro _ _ done asked; omega
  case nil => simp
  case skip =>
    intro _ _ _ _ _ empty ih asked
    simp [ih asked, empty]
  case exhaust =>
    intro _ _ _ _ stocked _ _ _
    simp [not_le.mpr stocked]
  case finish =>
    intro _ _ _ _ more short _
    simp
    omega

/-- An order as large as the levels together takes each of them whole. -/
theorem matchLevels_all (clid : Bytes) (levels : List (Double × Int)) (remaining : Int)
    (positive : PositiveLevels levels) (enough : (levels.map Prod.snd).sum ≤ remaining) :
    (matchLevels clid levels remaining).1 = levels.map fun e => ⟨clid, e.2, e.1⟩ := by
  induction levels generalizing remaining with
  | nil => rfl
  | cons level rest ih =>
    obtain ⟨price, avail⟩ := level
    have stocked : 0 < avail := positive _ List.mem_cons_self
    have others : PositiveLevels rest := fun e he => positive e (List.mem_cons_of_mem _ he)
    have nonneg : 0 ≤ (rest.map Prod.snd).sum := by
      refine List.sum_nonneg fun size member => ?_
      obtain ⟨e, he, rfl⟩ := List.mem_map.mp member
      exact (others e he).le
    rw [List.map_cons, List.sum_cons] at enough
    simp only at enough
    rw [matchLevels_exhaust stocked (by omega), ih _ others (by omega)]
    rfl

theorem matchLevels_positive (clid : Bytes) (levels : List (Double × Int)) (remaining : Int)
    (positive : PositiveLevels levels) :
    PositiveLevels (matchLevels clid levels remaining).2 := by
  revert positive
  refine matchLevels_induction clid (P := fun levels _ r => PositiveLevels levels →
    PositiveLevels r.2)
    ?stop ?nil ?skip ?exhaust ?finish levels remaining
  case stop => intro _ _ _ positive; exact positive
  case nil => intro _ _ positive; exact positive
  case skip | exhaust =>
    intro _ _ _ _ _ _ ih positive
    exact ih fun e he => positive e (List.mem_cons_of_mem _ he)
  case finish =>
    intro price avail rest n more short positive e he
    rcases List.mem_cons.mp he with rfl | he
    · show 0 < avail - n
      omega
    · exact positive e (List.mem_cons_of_mem _ he)

end Loop

/-! ### Positive sizes in every reachable book -/

/-- Every stored level has a positive size. -/
def SideBook.Positive (sb : SideBook) : Prop :=
  sb.bids.Values (0 < ·) ∧ sb.asks.Values (0 < ·)

namespace OrderBook

variable {ob : OrderBook}

/-- Every stored level of every symbol has a positive size. -/
def Positive (ob : OrderBook) : Prop := ∀ symbol, (ob.sideBook symbol).Positive

theorem Positive.opposite (h : ob.Positive) (symbol : Bytes) (side : Side) :
    PositiveLevels (ob.opposite symbol side) := by
  cases side
  · exact (h symbol).2
  · exact (h symbol).1

theorem Positive.put (h : ob.Positive) {symbol : Bytes} {sb : SideBook} (hs : sb.Positive) :
    (ob.put symbol sb).Positive := by
  intro other
  rw [sideBook_put]
  split_ifs
  · exact hs
  · exact h other

theorem empty_positive : OrderBook.empty.Positive := by
  intro symbol
  constructor <;> intro e he <;> cases he

theorem applyLevel_positive {sb : SideBook} (h : sb.Positive) (price : Double) (size : Int) :
    (sb.applyLevel price size).Positive := by
  simp only [SideBook.applyLevel]
  split
  · exact ⟨h.1.erase, h.2.erase⟩
  · rename_i positive
    have positive : 0 < size := by omega
    split
    · split
      · exact ⟨h.1.set positive, h.2⟩
      · exact ⟨h.1, h.2.set positive⟩
    · exact ⟨h.1, h.2.set positive⟩

theorem applyEvent_positive (h : ob.Positive) (ev : Event) : (ob.applyEvent ev).Positive := by
  simp only [applyEvent]
  split
  · exact h
  · exact h.put (applyLevel_positive (h _) _ _)

theorem matchOrder_positive (h : ob.Positive) (ord : Order) : (ob.matchOrder ord).2.Positive := by
  rcases ob.matchOrder_cases ord with ⟨-, -, same⟩ | ⟨-, -, walked, kept, others⟩
  · intro symbol
    rw [same]
    exact h symbol
  · intro symbol
    by_cases own : symbol = ord.symbol
    · subst own
      have sides : ∀ side, PositiveLevels ((ob.matchOrder ord).2.opposite ord.symbol side) := by
        intro side
        by_cases this : side = ord.side
        · rw [this, walked]
          exact matchLevels_positive _ _ _ (h.opposite _ _)
        · rw [kept side this]
          exact h.opposite _ _
      exact ⟨sides .sell, sides .buy⟩
    · rw [others symbol own]
      exact h symbol

theorem setLevel_positive (h : ob.Positive) (symbol : Bytes) (sideBuy : Bool) (price : Double)
    (size : Int) : (ob.setLevel symbol sideBuy price size).Positive := by
  have levels := h symbol
  simp only [setLevel]
  split_ifs with side none none
  · exact h.put ⟨levels.1.erase, levels.2⟩
  · exact h.put ⟨levels.1.set (by omega), levels.2⟩
  · exact h.put ⟨levels.1, levels.2.erase⟩
  · exact h.put ⟨levels.1, levels.2.set (by omega)⟩

theorem after_positive (h : ob.Positive) (op : BookOp) : (ob.after op).Positive := by
  cases op with
  | feed ev => exact applyEvent_positive h ev
  | order ord => exact matchOrder_positive h ord
  | setLevel symbol sideBuy price size => exact setLevel_positive h symbol sideBuy price size

/-- No call of the interface stores a level without size. -/
theorem Reachable.positive (h : ob.Reachable) : ob.Positive := by
  obtain ⟨ops, rfl⟩ := h
  suffices ∀ start : OrderBook, start.Positive → (ops.foldl OrderBook.after start).Positive from
    this _ empty_positive
  induction ops with
  | nil => exact fun _ h => h
  | cons op ops ih => exact fun start h => ih _ (after_positive h op)

theorem Fed.positive (fed : ob.Fed) : ob.Positive := by
  obtain ⟨ops, -, reached⟩ := fed
  exact Reachable.positive ⟨ops, reached⟩

/-- An order's fills total at most its size, and nothing when its size is not positive. -/
theorem matchOrder_total (ob : OrderBook) (ord : Order) :
    fillTotal (ob.matchOrder ord).1 ≤ max ord.size 0 := by
  rcases ob.matchOrder_cases ord with ⟨-, none, -⟩ | ⟨asked, fills, -⟩
  · simp [none]
  · rw [fills]
    exact (matchLevels_total _ _ _ asked.le).trans (le_max_left _ _)

theorem matchOrder_fill (ob : OrderBook) (ord : Order) :
    ∀ f ∈ (ob.matchOrder ord).1, 0 < f.size ∧ f.clid = ord.clid := by
  rcases ob.matchOrder_cases ord with ⟨-, none, -⟩ | ⟨-, fills, -⟩
  · simp [none]
  · rw [fills]
    exact fun f hf => ⟨(matchLevels_fill _ _ _ f hf).1, (matchLevels_fill _ _ _ f hf).2.1⟩

/-- In a book with positive sizes, an order fills nothing exactly when it has no opposite level to
trade against. -/
theorem matchOrder_eq_nil_iff (h : ob.Positive) {ord : Order} (asked : 0 < ord.size) :
    (ob.matchOrder ord).1 = [] ↔ ob.opposite ord.symbol ord.side = [] := by
  rcases ob.matchOrder_cases ord with ⟨stop, none, -⟩ | ⟨-, fills, -⟩
  · have : ob.opposite ord.symbol ord.side = [] := stop.resolve_left (by omega)
    simp [none, this]
  · rw [fills, matchLevels_eq_nil_iff _ _ _ asked]
    constructor
    · intro empty
      refine List.eq_nil_iff_forall_not_mem.mpr fun e he => ?_
      have := h.opposite _ _ e he
      have := empty e he
      omega
    · intro empty
      simp [empty]

/-! ### Reading a book after an order -/

theorem matchOrder_fills (ob : OrderBook) (ord : Order) : (ob.matchOrder ord).1 =
    (matchLevels ord.clid (ob.opposite ord.symbol ord.side) ord.size).1 := by
  rcases ob.matchOrder_cases ord with ⟨stop | stop, fills, -⟩ | ⟨-, fills, -⟩
  · rw [fills, matchLevels_stop stop]
  · rw [fills, stop]
    rfl
  · exact fills

theorem matchOrder_opposite (ob : OrderBook) (ord : Order) (side : Side) :
    (ob.matchOrder ord).2.opposite ord.symbol side =
      if side = ord.side then (matchLevels ord.clid (ob.opposite ord.symbol side) ord.size).2
      else ob.opposite ord.symbol side := by
  rcases ob.matchOrder_cases ord with ⟨stop, -, same⟩ | ⟨-, -, walked, kept, -⟩
  · rw [opposite, same, ← opposite]
    split_ifs with facing
    · rcases stop with stop | stop
      · rw [matchLevels_stop stop]
      · rw [facing, stop]
        rfl
    · rfl
  · split_ifs with facing
    · rw [facing, walked]
    · exact kept side facing

theorem matchOrder_others (ob : OrderBook) (ord : Order) {symbol : Bytes}
    (other : symbol ≠ ord.symbol) :
    (ob.matchOrder ord).2.sideBook symbol = ob.sideBook symbol := by
  rcases ob.matchOrder_cases ord with ⟨-, -, same⟩ | ⟨-, -, -, -, others⟩
  · exact same symbol
  · exact others symbol other

theorem topOfBook_eq (ob : OrderBook) (symbol : Bytes) : ob.topOfBook symbol =
    (bestPrice (ob.sideBook symbol).bids, bestPrice (ob.sideBook symbol).asks) := by
  unfold topOfBook sideBook
  cases ob.books.lookup symbol with
  | none => rfl
  | some sb => rfl

theorem sideBook_ext {sb sb' : SideBook} (same : ∀ side, sb.opposite side = sb'.opposite side) :
    sb = sb' := by
  obtain ⟨bids, asks⟩ := sb
  obtain ⟨bids', asks'⟩ := sb'
  obtain rfl : bids = bids' := Kit.OrderedMap.ext_entries (same .sell)
  obtain rfl : asks = asks' := Kit.OrderedMap.ext_entries (same .buy)
  rfl

end OrderBook

end EtradePipeline
