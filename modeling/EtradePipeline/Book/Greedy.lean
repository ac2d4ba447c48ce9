import EtradePipeline.Book.Ledger

/-! `match_order` as the greedy walk over the opposite levels, best price first.  What an order
takes of a level is what is left of its size behind the levels before, and at most what the level
has. -/

namespace EtradePipeline

open Kit.KeyedList (total_eq_zero)

/-- The size that levels offer together. -/
def levelTotal (levels : List (Double × Int)) : Int := (levels.map Prod.snd).sum

/-- The size that the levels before the `i`th offer. -/
def sizeBefore (levels : List (Double × Int)) (i : Nat) : Int := levelTotal (levels.take i)

/-- The levels less what fills take of them, without those that are exhausted. -/
def leftAfter (fills : List Fill) (levels : List (Double × Int)) : List (Double × Int) :=
  (levels.map fun e => (e.1, e.2 - fillsAt e.1 fills)).filter fun e => 0 < e.2

/-- The second price is worse than the first for an order on the side. -/
def Side.Worsens : Side → Double → Double → Prop
  | .buy, a, b => Double.lt a b = true
  | .sell, a, b => Double.gt a b = true

/-- The price at which `top_of_book` reports the levels that an order on the side trades against. -/
def OrderBook.topAgainst (ob : OrderBook) (symbol : Bytes) : Side → Double
  | .buy => (ob.topOfBook symbol).2
  | .sell => (ob.topOfBook symbol).1

instance : (side : Side) → (a b : Double) → Decidable (side.Worsens a b)
  | .buy, _, _ => inferInstanceAs (Decidable (_ = _))
  | .sell, _, _ => inferInstanceAs (Decidable (_ = _))

@[simp] theorem levelTotal_nil : levelTotal [] = 0 := rfl

@[simp] theorem levelTotal_cons (e : Double × Int) (levels : List (Double × Int)) :
    levelTotal (e :: levels) = e.2 + levelTotal levels := by simp [levelTotal]

@[simp] theorem sizeBefore_zero (levels : List (Double × Int)) : sizeBefore levels 0 = 0 := rfl

@[simp] theorem sizeBefore_nil (i : Nat) : sizeBefore [] i = 0 := by simp [sizeBefore]

@[simp] theorem sizeBefore_cons (e : Double × Int) (levels : List (Double × Int)) (i : Nat) :
    sizeBefore (e :: levels) (i + 1) = e.2 + sizeBefore levels i := by simp [sizeBefore]

section Loop

variable {clid : Bytes} {levels : List (Double × Int)} {n : Int}

theorem PositiveLevels.tail {e : Double × Int} (positive : PositiveLevels (e :: levels)) :
    0 < e.2 ∧ PositiveLevels levels :=
  List.forall_mem_cons.mp positive

theorem PositiveLevels.total_nonneg (positive : PositiveLevels levels) : 0 ≤ levelTotal levels := by
  induction levels with
  | nil => simp
  | cons e levels ih =>
    obtain ⟨stocked, others⟩ := positive.tail
    have := ih others
    rw [levelTotal_cons]
    omega

theorem PositiveLevels.before_nonneg (positive : PositiveLevels levels) (i : Nat) :
    0 ≤ sizeBefore levels i :=
  total_nonneg fun e he => positive e (List.mem_of_mem_take he)

/-- The walk: the fill at the `i`th level, while there is something left of the order. -/
theorem matchLevels_getElem? (clid : Bytes) (positive : PositiveLevels levels) (n : Int) (i : Nat) :
    (matchLevels clid levels n).1[i]? =
      if sizeBefore levels i < n then
        levels[i]?.map fun e => ⟨clid, min e.2 (n - sizeBefore levels i), e.1⟩
      else none := by
  induction levels generalizing n i with
  | nil => simp [matchLevels]
  | cons level rest ih =>
    obtain ⟨price, avail⟩ := level
    obtain ⟨stocked, others⟩ := positive.tail
    simp only at stocked
    rcases le_or_gt n 0 with done | more
    · have := positive.before_nonneg i
      rw [matchLevels_stop done, if_neg (by omega)]
      rfl
    rcases le_or_gt avail n with enough | short
    · rw [matchLevels_exhaust stocked enough]
      cases i with
      | zero => simp [more, enough]
      | succ i =>
        have lower : avail + sizeBefore rest i < n ↔ sizeBefore rest i < n - avail := by omega
        have same : n - (avail + sizeBefore rest i) = n - avail - sizeBefore rest i := by omega
        simp only [List.getElem?_cons_succ, ih others, sizeBefore_cons, lower, same]
    · rw [matchLevels_finish more short]
      cases i with
      | zero => simp [more, min_eq_right short.le]
      | succ i =>
        have := others.before_nonneg i
        rw [sizeBefore_cons, if_neg (by simp only; omega)]
        rfl

/-- The prices of the fills are the first prices of the levels. -/
theorem matchLevels_prices (clid : Bytes) (positive : PositiveLevels levels) (n : Int) :
    (matchLevels clid levels n).1.map Fill.price <+: levels.map Prod.fst := by
  induction levels generalizing n with
  | nil => simp [matchLevels]
  | cons level rest ih =>
    obtain ⟨price, avail⟩ := level
    obtain ⟨stocked, others⟩ := positive.tail
    rcases le_or_gt n 0 with done | more
    · simp [matchLevels_stop done]
    rcases le_or_gt avail n with enough | short
    · rw [matchLevels_exhaust stocked enough]
      exact List.cons_prefix_cons.mpr ⟨rfl, ih others _⟩
    · rw [matchLevels_finish more short]
      exact List.cons_prefix_cons.mpr ⟨rfl, List.nil_prefix⟩

/-- All fills but the last take their level whole. -/
theorem matchLevels_dropLast (clid : Bytes) (positive : PositiveLevels levels) (n : Int) :
    (matchLevels clid levels n).1.dropLast.map (fun f => (f.price, f.size)) <+: levels := by
  induction levels generalizing n with
  | nil => simp [matchLevels]
  | cons level rest ih =>
    obtain ⟨price, avail⟩ := level
    obtain ⟨stocked, others⟩ := positive.tail
    rcases le_or_gt n 0 with done | more
    · simp [matchLevels_stop done]
    rcases le_or_gt avail n with enough | short
    · rw [matchLevels_exhaust stocked enough]
      have behind := ih others (n - avail)
      cases fills : (matchLevels clid rest (n - avail)).1 with
      | nil => simp
      | cons f fs =>
        rw [fills] at behind
        exact List.cons_prefix_cons.mpr ⟨rfl, behind⟩
    · simp [matchLevels_finish more short]

/-- An order takes all that it asks for, or all there is. -/
theorem matchLevels_total_eq (clid : Bytes) (positive : PositiveLevels levels) (asked : 0 ≤ n) :
    fillTotal (matchLevels clid levels n).1 = min n (levelTotal levels) := by
  induction levels generalizing n with
  | nil => simp [matchLevels, asked]
  | cons level rest ih =>
    obtain ⟨price, avail⟩ := level
    obtain ⟨stocked, others⟩ := positive.tail
    have := others.total_nonneg
    simp only at stocked
    rcases asked.eq_or_lt with rfl | more
    · rw [matchLevels_stop (le_refl 0), levelTotal_cons, min_eq_left (by simp only; omega)]
      rfl
    rcases le_or_gt avail n with enough | short
    · rw [matchLevels_exhaust stocked enough, fillTotal_cons, ih others (by omega), levelTotal_cons]
      simp only
      omega
    · rw [matchLevels_finish more short, levelTotal_cons]
      simp
      omega

/-- Nothing is filled at a price that is not among the levels. -/
theorem fillsAt_eq_zero {fills : List Fill} {price : Double} (prices : List Double)
    (within : fills.map Fill.price ⊆ prices) (absent : price ∉ prices) :
    fillsAt price fills = 0 := by
  refine total_eq_zero fun e member at_ => absent ?_
  obtain ⟨f, filled, rfl⟩ := List.mem_map.mp member
  rw [← at_]
  exact within (List.mem_map_of_mem filled)

theorem leftAfter_congr {fills fills' : List Fill}
    (same : ∀ e ∈ levels, fillsAt e.1 fills = fillsAt e.1 fills') :
    leftAfter fills levels = leftAfter fills' levels := by
  unfold leftAfter
  rw [List.map_congr_left fun e member => by rw [same e member]]

theorem leftAfter_nil (positive : PositiveLevels levels) : leftAfter [] levels = levels := by
  have none : ∀ price, fillsAt price [] = 0 := fun _ => rfl
  unfold leftAfter
  simp only [none, sub_zero, Prod.mk.eta, List.map_id']
  exact List.filter_eq_self.mpr fun e member => decide_eq_true (positive e member)

theorem leftAfter_cons (fills : List Fill) (e : Double × Int) :
    leftAfter fills (e :: levels) =
      if 0 < e.2 - fillsAt e.1 fills then (e.1, e.2 - fillsAt e.1 fills) :: leftAfter fills levels
      else leftAfter fills levels := by
  simp [leftAfter, List.filter_cons]

/-- What the fills take is subtracted from the levels, and a level that they exhaust is erased. -/
theorem matchLevels_left (clid : Bytes) (positive : PositiveLevels levels)
    (distinct : (levels.map Prod.fst).Nodup) (n : Int) :
    (matchLevels clid levels n).2 = leftAfter (matchLevels clid levels n).1 levels := by
  induction levels generalizing n with
  | nil => rfl
  | cons level rest ih =>
    obtain ⟨price, avail⟩ := level
    obtain ⟨stocked, others⟩ := positive.tail
    obtain ⟨absent, distinct⟩ := List.nodup_cons.mp distinct
    have elsewhere : ∀ e ∈ rest, price ≠ e.1 :=
      fun e member same => absent (List.mem_map.mpr ⟨e, member, same.symm⟩)
    rcases le_or_gt n 0 with done | more
    · rw [matchLevels_stop done]
      exact (leftAfter_nil positive).symm
    rcases le_or_gt avail n with enough | short
    · have behind := (matchLevels_prices clid others (n - avail)).subset
      have here : fillsAt price (matchLevels clid rest (n - avail)).1 = 0 :=
        fillsAt_eq_zero _ behind absent
      have kept : leftAfter (⟨clid, avail, price⟩ :: (matchLevels clid rest (n - avail)).1) rest =
          leftAfter (matchLevels clid rest (n - avail)).1 rest :=
        leftAfter_congr fun e member => by simp [fillsAt_cons, elsewhere e member]
      rw [matchLevels_exhaust stocked enough, leftAfter_cons, kept, ← ih others distinct]
      simp [fillsAt_cons, here]
    · have kept : leftAfter [⟨clid, n, price⟩] rest = rest := by
        refine (leftAfter_congr fun e member => ?_).trans (leftAfter_nil others)
        simp [fillsAt_cons, elsewhere e member]
      have here : fillsAt price [⟨clid, n, price⟩] = n := by simp [fillsAt_cons]
      rw [matchLevels_finish more short, leftAfter_cons, kept, here, if_pos (by simp only; omega)]

end Loop

namespace OrderBook

variable {ob : OrderBook}

/-- The levels that an order trades against are in order of worsening price. -/
theorem opposite_sorted (ob : OrderBook) (symbol : Bytes) (side : Side) :
    ((ob.opposite symbol side).map Prod.fst).Pairwise side.Worsens := by
  cases side with
  | buy => exact List.pairwise_map.mpr (ob.sideBook symbol).asks.sorted
  | sell => exact List.pairwise_map.mpr (ob.sideBook symbol).bids.sorted

theorem opposite_nodup (ob : OrderBook) (symbol : Bytes) (side : Side) :
    ((ob.opposite symbol side).map Prod.fst).Nodup := by
  refine (ob.opposite_sorted symbol side).imp fun {a b} worse => ?_
  rintro rfl
  cases side <;> simp [Side.Worsens, Double.gt] at worse

/-- `top_of_book` reports the first of the levels. -/
theorem topAgainst_eq (ob : OrderBook) (symbol : Bytes) (side : Side) :
    ob.topAgainst symbol side = ((ob.opposite symbol side).head?).elim .nan Prod.fst := by
  cases side <;> simp only [topAgainst, topOfBook_eq] <;> rfl

theorem matchOrder_worsens (positive : ob.Positive) (ord : Order) :
    ((ob.matchOrder ord).1.map Fill.price).Pairwise ord.side.Worsens := by
  rw [matchOrder_fills]
  have first := matchLevels_prices ord.clid (positive.opposite ord.symbol ord.side) ord.size
  exact (ob.opposite_sorted ord.symbol ord.side).sublist first.sublist

theorem matchOrder_first (positive : ob.Positive) (ord : Order) {f : Fill}
    (first : (ob.matchOrder ord).1.head? = some f) :
    f.price = ob.topAgainst ord.symbol ord.side := by
  have prices := matchLevels_prices ord.clid (positive.opposite ord.symbol ord.side) ord.size
  rw [matchOrder_fills] at first
  obtain ⟨rest, fills⟩ := List.head?_eq_some_iff.mp first
  rw [fills, List.map_cons] at prices
  rw [topAgainst_eq]
  cases levels : ob.opposite ord.symbol ord.side with
  | nil => simp [levels] at prices
  | cons e others =>
    rw [levels, List.map_cons] at prices
    exact (List.cons_prefix_cons.mp prices).1

theorem matchOrder_total_eq (positive : ob.Positive) {ord : Order} (asked : 0 < ord.size) :
    fillTotal (ob.matchOrder ord).1 =
      min ord.size (levelTotal (ob.opposite ord.symbol ord.side)) := by
  rw [matchOrder_fills]
  exact matchLevels_total_eq ord.clid (positive.opposite ord.symbol ord.side) asked.le

theorem matchOrder_left (positive : ob.Positive) (ord : Order) :
    (ob.matchOrder ord).2.opposite ord.symbol ord.side =
      leftAfter (ob.matchOrder ord).1 (ob.opposite ord.symbol ord.side) := by
  rw [matchOrder_opposite, if_pos rfl, matchOrder_fills]
  exact matchLevels_left ord.clid (positive.opposite ord.symbol ord.side) (ob.opposite_nodup _ _) _

end OrderBook

/-- `match_order` is the greedy walk over the opposite levels, best price first.  The `i`th fill is
at the `i`th level, of what is left of the order and at most the level's size, as long as something
is left.  The fills get strictly worse, all but the last take their level whole, the first is at the
price that `top_of_book` reports, and together they are the order's size or all there is.  The
levels are left less their fills, and nothing else changes. -/
theorem matchOrder_greedy (ob : OrderBook) (positive : ob.Positive) (ord : Order)
    (asked : 0 < ord.size) :
    let levels := ob.opposite ord.symbol ord.side
    let fills := (ob.matchOrder ord).1
    let after := (ob.matchOrder ord).2
    (∀ i, fills[i]? =
      if sizeBefore levels i < ord.size then
        levels[i]?.map fun e => ⟨ord.clid, min e.2 (ord.size - sizeBefore levels i), e.1⟩
      else none) ∧
    (∀ f ∈ fills, 0 < f.size ∧ f.clid = ord.clid) ∧
    (fills.map Fill.price).Pairwise ord.side.Worsens ∧
    fills.dropLast.map (fun f => (f.price, f.size)) <+: levels ∧
    (∀ f, fills.head? = some f → f.price = ob.topAgainst ord.symbol ord.side) ∧
    fillTotal fills = min ord.size (levelTotal levels) ∧
    after.opposite ord.symbol ord.side = leftAfter fills levels ∧
    (∀ side, side ≠ ord.side → after.opposite ord.symbol side = ob.opposite ord.symbol side) ∧
    ∀ symbol, symbol ≠ ord.symbol → after.sideBook symbol = ob.sideBook symbol := by
  intro levels fills after
  have stocked := positive.opposite ord.symbol ord.side
  refine ⟨fun i => ?_, ob.matchOrder_fill ord, OrderBook.matchOrder_worsens positive ord, ?_,
    fun f => OrderBook.matchOrder_first positive ord, OrderBook.matchOrder_total_eq positive asked,
    OrderBook.matchOrder_left positive ord, fun side own => ?_, fun symbol other => ?_⟩
  · rw [show fills = _ from ob.matchOrder_fills ord]
    exact matchLevels_getElem? ord.clid stocked ord.size i
  · rw [show fills = _ from ob.matchOrder_fills ord]
    exact matchLevels_dropLast ord.clid stocked ord.size
  · rw [ob.matchOrder_opposite ord side, if_neg own]
  · exact ob.matchOrder_others ord other

/-- Asks of 7 at 100.00 and of 5 at 101.00. -/
def twoAsks : OrderBook :=
  [BookOp.setLevel (bytes "AAPL") false (.finite 101) 5,
    BookOp.setLevel (bytes "AAPL") false (.finite 100) 7].foldl OrderBook.after .empty

theorem matchOrder_greedy_two_asks :
    fillTotal (twoAsks.matchOrder ⟨bytes "cli1", .buy, bytes "AAPL", .finite 100, 9⟩).1 = 9 ∧
      (twoAsks.matchOrder ⟨bytes "cli1", .buy, bytes "AAPL", .finite 100, 9⟩).1[1]? =
        some ⟨bytes "cli1", 2, .finite 101⟩ := by
  have positive : twoAsks.Positive := OrderBook.Reachable.positive ⟨_, rfl⟩
  obtain ⟨walk, -, -, -, -, total, -⟩ :=
    matchOrder_greedy twoAsks positive ⟨bytes "cli1", .buy, bytes "AAPL", .finite 100,
      9⟩ (by decide)
  exact ⟨total.trans (by decide), (walk 1).trans (by decide)⟩

end EtradePipeline
