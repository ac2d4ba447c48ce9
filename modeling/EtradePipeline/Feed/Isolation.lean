import EtradePipeline.Book.Matching
import EtradePipeline.Feed.Frame

/-! The levels of one symbol, as a function of the inputs about that symbol.  The receiver stores
the symbol field of a datagram in a buffer of 32 bytes, so a datagram is about the first 31 bytes of
its field, up to a NUL.  An order is about the symbol that it names. -/

namespace EtradePipeline

open Kit (OrderedMap)
open Kit.OrderedMap (equiv exists_assign)

/-- What reaches a running engine: a datagram with the time and source of its receipt, or an
order. -/
inductive Input where
  | datagram (payload : Bytes) (recvTsMs : Int) (source : Source)
  | order (ord : Order)

/-- What an input means for its symbol. -/
inductive Concern where
  | quote (price : Double) (size : Int)
  | order (ord : Order)
  deriving DecidableEq

namespace Input

variable (toDouble : Bytes → Option Double)

/-- The call of the book that an input leads to. -/
def op : Input → Option BookOp
  | .datagram payload recvTsMs source => (receiveEvent toDouble payload recvTsMs source).map .feed
  | .order ord => some (.order ord)

/-- What an input means for `symbol`, when it is about that symbol.  A datagram is about what its
event keeps of the symbol field, and about nothing when that is empty. -/
def concerns (symbol : Bytes) : Input → Option Concern
  | .datagram payload _ _ =>
    match parse toDouble payload with
    | .ok fields =>
      if (setSymbol fields.symbol).cstr = symbol ∧ symbol ≠ [] then
        some (.quote fields.price fields.size)
      else none
    | .error _ => none
  | .order ord => if ord.symbol = symbol then some (.order ord) else none

end Input

/-- The book that inputs lead to from the empty one. -/
def bookAfter (toDouble : Bytes → Option Double) (inputs : List Input) : OrderBook :=
  (inputs.filterMap (Input.op toDouble)).foldl OrderBook.after .empty

/-- The levels of a symbol after a concern. -/
def SideBook.after (sb : SideBook) : Concern → SideBook
  | .quote price size => sb.applyLevel price size
  | .order ord =>
    match ord.side with
    | .buy => { sb with asks := (matchSide sb.asks ord.clid ord.size).2 }
    | .sell => { sb with bids := (matchSide sb.bids ord.clid ord.size).2 }

namespace OrderBook

variable {ob : OrderBook} {symbol : Bytes}

theorem matchOrder_sideBook (ob : OrderBook) (ord : Order) :
    (ob.matchOrder ord).2.sideBook ord.symbol = (ob.sideBook ord.symbol).after (.order ord) := by
  refine sideBook_ext fun side => ?_
  refine (matchOrder_opposite ob ord side).trans ?_
  obtain ⟨clid, side', symbol, price, size⟩ := ord
  cases side <;> cases side' <;> rfl

end OrderBook

variable {toDouble : Bytes → Option Double} {symbol : Bytes}

/-- The step: an input does to the levels of a symbol what it means for that symbol. -/
theorem after_op (ob : OrderBook) (input : Input) :
    (((input.op toDouble).toList.foldl OrderBook.after ob).sideBook symbol) =
      (input.concerns toDouble symbol).toList.foldl SideBook.after (ob.sideBook symbol) := by
  cases input with
  | datagram payload recvTsMs source =>
    simp only [Input.op, Input.concerns, receiveEvent]
    cases parse toDouble payload with
    | error e => rfl
    | ok fields =>
      show (ob.applyEvent (buildEvent fields recvTsMs source)).sideBook symbol = _
      have key : (buildEvent fields recvTsMs source).symbolStr = (setSymbol fields.symbol).cstr :=
        rfl
      unfold OrderBook.applyEvent
      rw [key]
      dsimp only
      by_cases own : (setSymbol fields.symbol).cstr = symbol
      · subst own
        by_cases unnamed : (setSymbol fields.symbol).cstr = []
        · simp [unnamed]
        · rw [if_neg unnamed, OrderBook.sideBook_put_same, if_pos ⟨rfl, unnamed⟩]
          rfl
      · simp only [own, false_and, if_false]
        split_ifs
        · rfl
        · rw [OrderBook.sideBook_put, if_neg (Ne.symm own)]
          rfl
  | order ord =>
    simp only [Input.op, Input.concerns]
    by_cases own : ord.symbol = symbol
    · subst own
      rw [if_pos rfl]
      exact ob.matchOrder_sideBook ord
    · rw [if_neg own]
      exact ob.matchOrder_others ord (Ne.symm own)

/-- The run: the levels of a symbol are a function of the inputs about it. -/
theorem sideBook_bookAfter (inputs : List Input) :
    (bookAfter toDouble inputs).sideBook symbol =
      (inputs.filterMap (Input.concerns toDouble symbol)).foldl SideBook.after .empty := by
  suffices ∀ start : OrderBook,
      ((inputs.filterMap (Input.op toDouble)).foldl OrderBook.after start).sideBook symbol =
        (inputs.filterMap (Input.concerns toDouble symbol)).foldl SideBook.after
          (start.sideBook symbol) from this .empty
  induction inputs with
  | nil => exact fun _ => rfl
  | cons input inputs ih =>
    intro start
    have step : ((input.op toDouble).toList.foldl OrderBook.after start).sideBook symbol = _ :=
      after_op start input
    have rest := ih ((input.op toDouble).toList.foldl OrderBook.after start)
    rw [step] at rest
    simpa only [List.filterMap_eq_flatMap_toList, List.flatMap_cons, List.foldl_append] using rest

/-- What orders for a symbol are answered depends on its levels alone. -/
theorem answers_eq {ob ob' : OrderBook} (same : ob.sideBook symbol = ob'.sideBook symbol) :
    ob.topOfBook symbol = ob'.topOfBook symbol ∧
      ∀ ord : Order, ord.symbol = symbol → (ob.matchOrder ord).1 = (ob'.matchOrder ord).1 := by
  refine ⟨by rw [OrderBook.topOfBook_eq, OrderBook.topOfBook_eq, same], ?_⟩
  rintro ord rfl
  rw [OrderBook.matchOrder_fills, OrderBook.matchOrder_fills, OrderBook.opposite, same]
  rfl

theorem bookAfter_fed (inputs : List Input) : (bookAfter toDouble inputs).Fed := by
  refine ⟨_, fun op member => ?_, rfl⟩
  obtain ⟨input, -, called⟩ := List.mem_filterMap.mp member
  cases input with
  | datagram payload recvTsMs source =>
    obtain ⟨ev, -, rfl⟩ := Option.map_eq_some_iff.mp called
    trivial
  | order ord =>
    cases called
    trivial

/-- An order to buy at least all that is offered takes each level whole. -/
def Takes (ob : OrderBook) (symbol : Bytes) (level : Double × Int) : Prop :=
  ∀ ord : Order, ord.symbol = symbol → ord.side = .buy →
    ((ob.opposite symbol .buy).map Prod.snd).sum ≤ ord.size →
    ⟨ord.clid, level.2, level.1⟩ ∈ (ob.matchOrder ord).1

theorem takes_of_mem {ob : OrderBook} (positive : ob.Positive) {level : Double × Int}
    (offered : level ∈ ob.opposite symbol .buy) : Takes ob symbol level := by
  intro ord own buys enough
  rw [OrderBook.matchOrder_fills, own, buys,
    matchLevels_all ord.clid _ ord.size (positive.opposite symbol .buy) enough]
  exact List.mem_map.mpr ⟨level, offered, rfl⟩

theorem bookAfter_snoc (inputs : List Input) (input : Input) :
    (bookAfter toDouble (inputs ++ [input])).sideBook symbol =
      (input.concerns toDouble symbol).toList.foldl SideBook.after
        ((bookAfter toDouble inputs).sideBook symbol) := by
  rw [sideBook_bookAfter, sideBook_bookAfter, List.filterMap_append, List.foldl_append]
  cases h : input.concerns toDouble symbol <;> simp [h]

/-- A quote with a size is among the levels that orders to buy trade against. -/
theorem quote_offered (inputs : List Input) {input : Input} {price : Double} {size : Int}
    (quoted : input.concerns toDouble symbol = some (.quote price size)) (positive : 0 < size) :
    ∃ level ∈ (bookAfter toDouble (inputs ++ [input])).opposite symbol .buy,
      level.2 = size ∧ equiv Double.lt level.1 price = true := by
  have bids : ((bookAfter toDouble inputs).sideBook symbol).bids.entries = [] :=
    (bookAfter_fed inputs).no_bids symbol
  obtain ⟨-, asks⟩ := OrderBook.applyLevel_asks bids price size
  have offered : (bookAfter toDouble (inputs ++ [input])).opposite symbol .buy =
      asksAfter ((bookAfter toDouble inputs).sideBook symbol).asks.entries price size := by
    rw [OrderBook.opposite, bookAfter_snoc, quoted, ← asks]
    rfl
  rw [offered, asksAfter, if_neg (not_le.mpr positive)]
  exact exists_assign (Double.lt_irrefl price) size _

/-- What `top_of_book` and `match_order` answer for a symbol depends only on the quotes and orders
for that symbol, where a datagram quotes what its event keeps of the symbol field, and a quote with
a size can be bought. -/
theorem symbols_isolated (toDouble : Bytes → Option Double) (symbol : Bytes) :
    (∀ inputs inputs' : List Input,
      inputs.filterMap (Input.concerns toDouble symbol) =
        inputs'.filterMap (Input.concerns toDouble symbol) →
      (bookAfter toDouble inputs).topOfBook symbol = (bookAfter toDouble inputs').topOfBook symbol ∧
      ∀ ord : Order, ord.symbol = symbol →
        ((bookAfter toDouble inputs).matchOrder ord).1 =
          ((bookAfter toDouble inputs').matchOrder ord).1) ∧
    ∀ (inputs : List Input) (input : Input) (price : Double) (size : Int),
      input.concerns toDouble symbol = some (.quote price size) → 0 < size →
      ∃ level : Double × Int, level.2 = size ∧ equiv Double.lt level.1 price = true ∧
        Takes (bookAfter toDouble (inputs ++ [input])) symbol level := by
  refine ⟨fun inputs inputs' same => ?_, fun inputs input price size quoted positive => ?_⟩
  · apply answers_eq
    rw [sideBook_bookAfter, sideBook_bookAfter, same]
  · obtain ⟨level, offered, stored, at_⟩ := quote_offered inputs quoted positive
    exact ⟨level, stored, at_, takes_of_mem (bookAfter_fed _).positive offered⟩

/-- A quote for the symbol of `n` letters `A`. -/
def lettersQuote (n : Nat) : Input :=
  .datagram (bytes "1|1000|" ++ List.replicate n (byte 'A') ++ bytes "|100|5") 1005
    ⟨(127, 0, 0, 1), 40000⟩

/-- A quote for 32 letters changes the answer for 31 letters, and is not seen under its own
symbol. -/
theorem long_symbols_collide :
    parse stod (bytes "1|1000|" ++ List.replicate 32 (byte 'A') ++ bytes "|100|5") =
      .ok ⟨1, 1000, List.replicate 32 (byte 'A'), .finite 100, 5⟩ ∧
    (bookAfter stod []).topOfBook (List.replicate 31 (byte 'A')) = (.nan, .nan) ∧
    (bookAfter stod [lettersQuote 32]).topOfBook (List.replicate 31 (byte 'A')) =
      (.nan, .finite 100) ∧
    (bookAfter stod [lettersQuote 32]).topOfBook (List.replicate 32 (byte 'A')) = (.nan, .nan) ∧
    ((bookAfter stod [lettersQuote 32]).matchOrder
      ⟨bytes "cli1", .buy, List.replicate 32 (byte 'A'), .finite 100, 5⟩).1 = [] := by
  decide +kernel

end EtradePipeline
