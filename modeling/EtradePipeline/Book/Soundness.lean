import EtradePipeline.Book.Matching
import EtradePipeline.Kit.Transition

/-! The two sides of a book do not cross.  An event is placed by a comparison with the best bid
alone.  At or below it the event is below every ask, and above it above every bid, so the asks need
not be looked at. -/

namespace EtradePipeline

open Kit (OrderedMap)
open Kit.OrderedMap (find_eq_none)
open Kit.Transition

/-- The levels of a symbol have positive sizes and comparable prices, and every bid is below every
ask. -/
structure SideBook.Sound (sb : SideBook) : Prop where
  sizes : sb.Positive
  bids : sb.bids.KeysIn Double.Comparable
  asks : sb.asks.KeysIn Double.Comparable
  uncrossed : sb.bids.KeysIn fun b => ∀ a ∈ sb.asks.entries, Double.lt b a.1 = true

def OrderBook.Sound (ob : OrderBook) : Prop := ∀ symbol, (ob.sideBook symbol).Sound

/-- The level of a price is on exactly one side and has the given size, or on neither when that is
not positive. -/
def SideBook.Placed (sb : SideBook) (price : Double) (size : Int) : Prop :=
  if 0 < size then
    sb.bids.get? price = some size ∧ sb.asks.get? price = none ∨
      sb.bids.get? price = none ∧ sb.asks.get? price = some size
  else sb.bids.get? price = none ∧ sb.asks.get? price = none

instance (sb : SideBook) (price : Double) (size : Int) : Decidable (sb.Placed price size) :=
  inferInstanceAs (Decidable (if 0 < size then _ ∨ _ else _ ∧ _))

/-- The matching loop with a mark at each price that its clean-up branch erases. -/
def matchLevelsMarked (clid : Bytes) :
    List (Double × Int) → Int → List Fill × List (Double × Int) × List Double
  | [], _ => ([], [], [])
  | (price, avail) :: rest, remaining =>
    if remaining ≤ 0 then ([], (price, avail) :: rest, [])
    else if avail ≤ 0 then
      let (fills, left, cleaned) := matchLevelsMarked clid rest remaining
      (fills, left, price :: cleaned)
    else
      let take := min avail remaining
      let (fills, left, cleaned) := matchLevelsMarked clid rest (remaining - take)
      (⟨clid, take, price⟩ :: fills,
        if avail - take = 0 then left else (price, avail - take) :: left, cleaned)

/-- The marks change nothing else. -/
theorem matchLevelsMarked_eq (clid : Bytes) (levels : List (Double × Int)) (remaining : Int) :
    ((matchLevelsMarked clid levels remaining).1, (matchLevelsMarked clid levels remaining).2.1) =
      matchLevels clid levels remaining := by
  induction levels generalizing remaining with
  | nil => rfl
  | cons level rest ih =>
    obtain ⟨price, avail⟩ := level
    simp only [matchLevelsMarked, matchLevels]
    split_ifs with done empty
    · rfl
    · exact ih remaining
    · simp only [← ih]
    · simp only [← ih]

theorem matchLevelsMarked_cleaned (clid : Bytes) {levels : List (Double × Int)} (remaining : Int)
    (positive : PositiveLevels levels) : (matchLevelsMarked clid levels remaining).2.2 = [] := by
  induction levels generalizing remaining with
  | nil => rfl
  | cons level rest ih =>
    obtain ⟨price, avail⟩ := level
    have stocked : 0 < avail := positive _ List.mem_cons_self
    have others : PositiveLevels rest := fun e he => positive e (List.mem_cons_of_mem _ he)
    simp only [matchLevelsMarked, not_le.mpr stocked, if_false]
    split_ifs
    · rfl
    · exact ih _ others
    · exact ih _ others

namespace SideBook

variable {sb : SideBook} {price : Double} {size : Int}

theorem Sound.asks_none (sound : sb.Sound) (comparable : price.Comparable)
    (below : ∀ a ∈ sb.asks.entries, Double.lt price a.1 = true) : sb.asks.get? price = none := by
  refine (find_eq_none lt_totalOn sound.asks comparable).mpr fun a ha same => ?_
  have := below a ha
  rw [same, Double.lt_irrefl] at this
  cases this

theorem Sound.bids_none (sound : sb.Sound) (comparable : price.Comparable)
    (above : ∀ b ∈ sb.bids.entries, Double.lt b.1 price = true) : sb.bids.get? price = none := by
  refine (find_eq_none gt_totalOn sound.bids comparable).mpr fun b hb same => ?_
  have := above b hb
  rw [same, Double.lt_irrefl] at this
  cases this

/-- A bid below every ask. -/
theorem Sound.setBid (sound : sb.Sound) (comparable : price.Comparable) (positive : 0 < size)
    (below : ∀ a ∈ sb.asks.entries, Double.lt price a.1 = true) :
    ({ sb with bids := sb.bids.set price size } : SideBook).Sound :=
  ⟨⟨sound.sizes.1.set positive, sound.sizes.2⟩, sound.bids.set comparable, sound.asks,
    sound.uncrossed.set below⟩

/-- An ask above every bid. -/
theorem Sound.setAsk (sound : sb.Sound) (comparable : price.Comparable) (positive : 0 < size)
    (above : ∀ b ∈ sb.bids.entries, Double.lt b.1 price = true) :
    ({ sb with asks := sb.asks.set price size } : SideBook).Sound := by
  refine ⟨⟨sound.sizes.1, sound.sizes.2.set positive⟩, sound.bids, sound.asks.set comparable, ?_⟩
  intro b hb
  have asks : sb.asks.KeysIn fun a => Double.lt b.1 a = true := sound.uncrossed b hb
  exact asks.set (above b hb)

/-- Fewer levels, or levels of other positive sizes. -/
theorem Sound.shrink {sb' : SideBook} (sound : sb.Sound) (sizes : sb'.Positive)
    (bids : (sb'.bids.entries.map Prod.fst).Sublist (sb.bids.entries.map Prod.fst))
    (asks : (sb'.asks.entries.map Prod.fst).Sublist (sb.asks.entries.map Prod.fst)) :
    sb'.Sound := by
  have bid : ∀ b ∈ sb'.bids.entries, ∃ old ∈ sb.bids.entries, old.1 = b.1 := fun b hb =>
    List.mem_map.mp (bids.subset (List.mem_map_of_mem hb))
  have ask : ∀ a ∈ sb'.asks.entries, ∃ old ∈ sb.asks.entries, old.1 = a.1 := fun a ha =>
    List.mem_map.mp (asks.subset (List.mem_map_of_mem ha))
  refine ⟨sizes, fun b hb => ?_, fun a ha => ?_, fun b hb a ha => ?_⟩
  · obtain ⟨old, member, same⟩ := bid b hb
    exact same ▸ sound.bids old member
  · obtain ⟨old, member, same⟩ := ask a ha
    exact same ▸ sound.asks old member
  · obtain ⟨oldBid, bidMember, sameBid⟩ := bid b hb
    obtain ⟨oldAsk, askMember, sameAsk⟩ := ask a ha
    rw [← sameBid, ← sameAsk]
    exact sound.uncrossed oldBid bidMember oldAsk askMember

theorem Sound.erase (sound : sb.Sound) (comparable : price.Comparable) :
    ({ bids := sb.bids.erase price, asks := sb.asks.erase price } : SideBook).Sound ∧
      (sb.bids.erase price).get? price = none ∧ (sb.asks.erase price).get? price = none := by
  refine ⟨sound.shrink ⟨sound.sizes.1.erase, sound.sizes.2.erase⟩ ?_ ?_, ?_, ?_⟩
  · exact List.filter_sublist.map _
  · exact List.filter_sublist.map _
  · simp [OrderedMap.get?_erase gt_totalOn sound.bids comparable comparable]
  · simp [OrderedMap.get?_erase lt_totalOn sound.asks comparable comparable]

theorem Sound.above_bids (sound : sb.Sound) {best : Double × Int} {rest : List (Double × Int)}
    (levels : sb.bids.entries = best :: rest) (comparable : price.Comparable)
    (above : price.le best.1 = false) : ∀ b ∈ sb.bids.entries, Double.lt b.1 price = true := by
  have sorted := sb.bids.sorted
  have known := sound.bids best (by simp [levels])
  have above := Double.lt_of_not_le comparable known above
  rw [levels] at sorted ⊢
  intro b hb
  rcases List.mem_cons.mp hb with rfl | hb
  · exact above
  · exact Double.lt_trans ((List.pairwise_cons.mp sorted).1 b hb) above

/-- The step for an event: the comparison with the best bid tells on which side its level fits. -/
theorem Sound.applyLevel (sound : sb.Sound) (comparable : price.Comparable) (size : Int) :
    (sb.applyLevel price size).Sound ∧ (sb.applyLevel price size).Placed price size := by
  rcases le_or_gt size 0 with empty | positive
  · simp only [SideBook.applyLevel, Placed, empty, not_lt.mpr empty, if_true, if_false]
    exact sound.erase comparable
  have bid : (∀ a ∈ sb.asks.entries, Double.lt price a.1 = true) →
      ({ sb with bids := sb.bids.set price size } : SideBook).Sound ∧
        (sb.bids.set price size).get? price = some size ∧ sb.asks.get? price = none := by
    intro below
    refine ⟨sound.setBid comparable positive below, ?_, sound.asks_none comparable below⟩
    rw [OrderedMap.get?_set gt_totalOn sound.bids comparable comparable, if_pos rfl]
  have ask : (∀ b ∈ sb.bids.entries, Double.lt b.1 price = true) →
      ({ sb with asks := sb.asks.set price size } : SideBook).Sound ∧
        sb.bids.get? price = none ∧ (sb.asks.set price size).get? price = some size := by
    intro above
    refine ⟨sound.setAsk comparable positive above, sound.bids_none comparable above, ?_⟩
    rw [OrderedMap.get?_set lt_totalOn sound.asks comparable comparable, if_pos rfl]
  simp only [SideBook.applyLevel, Placed, not_le.mpr positive, positive, if_true, if_false]
  cases levels : sb.bids.entries with
  | nil =>
    obtain ⟨still, placed⟩ := ask (by simp [levels])
    exact ⟨still, .inr placed⟩
  | cons best rest =>
    obtain ⟨bestBid, bestSize⟩ := best
    simp only
    split_ifs with below
    · have known : (bestBid, bestSize) ∈ sb.bids.entries := by simp [levels]
      obtain ⟨still, placed⟩ := bid fun a ha =>
        Double.lt_of_le_of_lt below (sound.uncrossed _ known a ha)
      exact ⟨still, .inl placed⟩
    · obtain ⟨still, placed⟩ := ask (sound.above_bids levels comparable (by simpa using below))
      exact ⟨still, .inr placed⟩

end SideBook

namespace OrderBook

variable {ob : OrderBook} {symbol : Bytes} {sb : SideBook}

theorem empty_sound : OrderBook.empty.Sound :=
  fun symbol => ⟨empty_positive symbol, nofun, nofun, nofun⟩

theorem Sound.put (sound : ob.Sound) (levels : sb.Sound) : (ob.put symbol sb).Sound := by
  intro other
  rw [sideBook_put]
  split_ifs
  · exact levels
  · exact sound other

theorem applyEvent_sound (sound : ob.Sound) {ev : Event} (comparable : ev.price.Comparable) :
    (ob.applyEvent ev).Sound ∧
      (ev.symbolStr ≠ [] →
        ((ob.applyEvent ev).sideBook ev.symbolStr).Placed ev.price ev.size) := by
  obtain ⟨levels, placed⟩ := (sound ev.symbolStr).applyLevel comparable ev.size
  unfold applyEvent
  split_ifs with unnamed
  · exact ⟨sound, fun named => absurd unnamed named⟩
  · refine ⟨sound.put levels, fun _ => ?_⟩
    rw [sideBook_put_same]
    exact placed

theorem matchOrder_sound (sound : ob.Sound) (ord : Order) : (ob.matchOrder ord).2.Sound := by
  have positive : ob.Positive := fun symbol => (sound symbol).sizes
  intro symbol
  exact (sound symbol).shrink (matchOrder_positive positive ord symbol)
    (matchOrder_keys ob ord symbol .sell) (matchOrder_keys ob ord symbol .buy)

/-- A level set by hand that the other side of its symbol allows. -/
def Uncrossing (ob : OrderBook) (symbol : Bytes) (sideBuy : Bool) (price : Double) : Prop :=
  if sideBuy then ∀ a ∈ (ob.sideBook symbol).asks.entries, Double.lt price a.1 = true
  else ∀ b ∈ (ob.sideBook symbol).bids.entries, Double.lt b.1 price = true

theorem setLevel_sound (sound : ob.Sound) {sideBuy : Bool} {price : Double}
    (comparable : price.Comparable) (size : Int)
    (uncrossing : ob.Uncrossing symbol sideBuy price) :
    (ob.setLevel symbol sideBuy price size).Sound := by
  have levels := sound symbol
  unfold Uncrossing at uncrossing
  simp only [setLevel]
  split_ifs at uncrossing ⊢ with buy none none
  · refine sound.put (levels.shrink ⟨levels.sizes.1.erase, levels.sizes.2⟩ ?_ ?_)
    · exact List.filter_sublist.map _
    · exact List.Sublist.refl _
  · exact sound.put (levels.setBid comparable (by omega) uncrossing)
  · refine sound.put (levels.shrink ⟨levels.sizes.1, levels.sizes.2.erase⟩ ?_ ?_)
    · exact List.Sublist.refl _
    · exact List.filter_sublist.map _
  · exact sound.put (levels.setAsk comparable (by omega) uncrossing)

/-- A call at comparable prices, which does not cross the book by hand. -/
def Allows (ob : OrderBook) : BookOp → Prop
  | .feed ev => ev.price.Comparable
  | .order _ => True
  | .setLevel symbol sideBuy price _ => price.Comparable ∧ ob.Uncrossing symbol sideBuy price

theorem after_sound (sound : ob.Sound) {op : BookOp} (allowed : ob.Allows op) :
    (ob.after op).Sound := by
  cases op with
  | feed ev => exact (applyEvent_sound sound allowed).1
  | order ord => exact matchOrder_sound sound ord
  | setLevel symbol sideBuy price size => exact setLevel_sound sound allowed.1 size allowed.2

/-- The run. -/
theorem run_sound (sound : ob.Sound) (ops : List BookOp)
    (each : EveryStep (fun ob op => some (ob.after op)) Allows ob ops) :
    EveryState (fun ob op => some (ob.after op)) Sound ob ops := by
  refine everyState_of_everyStep (I := Sound) ?keeps (fun _ sound => sound) sound each
  case keeps =>
    intro ob op ob' sound allowed stepped
    cases stepped
    exact after_sound sound allowed

end OrderBook

/-- The empty book is sound, and so is every book that allowed calls lead to from a sound one.  In a
sound book an event with a symbol puts its level on one side, or on neither when its size is not
positive, and an order finds no level without size. -/
theorem book_stays_sound :
    OrderBook.empty.Sound ∧ ∀ ob : OrderBook, ob.Sound →
      (∀ ops : List BookOp,
        EveryStep (fun ob op => some (ob.after op)) OrderBook.Allows ob ops →
        EveryState (fun ob op => some (ob.after op)) OrderBook.Sound ob ops) ∧
      (∀ ev : Event, ev.price.Comparable → ev.symbolStr ≠ [] →
        ((ob.applyEvent ev).sideBook ev.symbolStr).Placed ev.price ev.size) ∧
      ∀ ord : Order,
        (matchLevelsMarked ord.clid (ob.opposite ord.symbol ord.side) ord.size).2.2 = [] := by
  refine ⟨OrderBook.empty_sound, fun ob sound => ⟨OrderBook.run_sound sound, ?_, fun ord => ?_⟩⟩
  · exact fun ev comparable named => (OrderBook.applyEvent_sound sound comparable).2 named
  · have positive : ob.Positive := fun symbol => (sound symbol).sizes
    exact matchLevelsMarked_cleaned ord.clid ord.size (positive.opposite ord.symbol ord.side)

/-- An event without a symbol is not placed. -/
theorem unnamed_not_placed :
    let ev : Event := ⟨1, 0, 0, 0, setSymbol [], .finite 100, 5, setSrc []⟩
    OrderBook.empty.Sound ∧ ev.price.Comparable ∧ 0 < ev.size ∧
      ¬ ((OrderBook.empty.applyEvent ev).sideBook ev.symbolStr).Placed ev.price ev.size :=
  ⟨OrderBook.empty_sound, by decide, by decide, by decide⟩

end EtradePipeline
