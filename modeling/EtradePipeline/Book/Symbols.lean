import EtradePipeline.Book.Matching
import EtradePipeline.Kit.Components

/-! The symbols of a book are components of it: a call reads and writes the levels of its own symbol
alone, so calls about other symbols may come between in any way. -/

namespace EtradePipeline

open Kit.Components (Separate about about_transcript_eq)
open Kit.Transcript (transcript)

/-- The symbol that a call of the book is about. -/
def BookOp.symbol : BookOp → Bytes
  | .feed ev => ev.symbolStr
  | .order ord => ord.symbol
  | .setLevel symbol .. => symbol

namespace OrderBook

/-- The fills that a call returns, and the book after it. -/
def call (ob : OrderBook) (op : BookOp) : List Fill × OrderBook :=
  (match op with
    | .order ord => (ob.matchOrder ord).1
    | .feed _ | .setLevel .. => [],
  ob.after op)

variable {ob ob' : OrderBook} {symbol : Bytes}

theorem matchOrder_sideBook_congr (ord : Order)
    (same : ob.sideBook ord.symbol = ob'.sideBook ord.symbol) :
    (ob.matchOrder ord).2.sideBook ord.symbol = (ob'.matchOrder ord).2.sideBook ord.symbol := by
  refine sideBook_ext fun side => ?_
  have before : ob.opposite ord.symbol side = ob'.opposite ord.symbol side := by
    rw [opposite, same, opposite]
  rw [← opposite, ← opposite, matchOrder_opposite, matchOrder_opposite, before]

theorem applyEvent_sideBook_congr (ev : Event)
    (same : ob.sideBook ev.symbolStr = ob'.sideBook ev.symbolStr) :
    (ob.applyEvent ev).sideBook ev.symbolStr = (ob'.applyEvent ev).sideBook ev.symbolStr := by
  unfold applyEvent
  split_ifs
  · exact same
  · rw [sideBook_put_same, sideBook_put_same, same]

theorem setLevel_sideBook_congr (sideBuy : Bool) (price : Double) (size : Int)
    (same : ob.sideBook symbol = ob'.sideBook symbol) :
    (ob.setLevel symbol sideBuy price size).sideBook symbol =
      (ob'.setLevel symbol sideBuy price size).sideBook symbol := by
  simp only [setLevel, same]
  split_ifs <;> rw [sideBook_put_same, sideBook_put_same]

theorem after_other (op : BookOp) (other : symbol ≠ op.symbol) :
    (ob.after op).sideBook symbol = ob.sideBook symbol := by
  cases op with
  | feed ev =>
    have other : symbol ≠ ev.symbolStr := other
    simp only [after, applyEvent]
    split_ifs
    · rfl
    · rw [sideBook_put, if_neg other]
  | order ord => exact ob.matchOrder_others ord other
  | setLevel own sideBuy price size =>
    have other : symbol ≠ own := other
    simp only [after, setLevel]
    split_ifs <;> rw [sideBook_put, if_neg other]

/-- The symbols are components of the book. -/
theorem call_separate : Separate call BookOp.symbol fun symbol ob => ob.sideBook symbol where
  answer ob ob' op same := by
    cases op with
    | feed | setLevel => rfl
    | order ord =>
      have same : ob.opposite ord.symbol ord.side = ob'.opposite ord.symbol ord.side :=
        congrArg (fun sb => SideBook.opposite sb ord.side) same
      simp only [call, matchOrder_fills, same]
  own ob ob' op same := by
    cases op with
    | feed ev => exact applyEvent_sideBook_congr ev same
    | order ord => exact matchOrder_sideBook_congr ord same
    | setLevel symbol sideBuy price size => exact setLevel_sideBook_congr sideBuy price size same
  other ob op symbol other := after_other op other

end OrderBook

/-- Two runs of calls from one book that have the same calls about each symbol in the same order,
however they interleave the symbols, return the same fills to the calls about each symbol and end
with the same levels and the same top of each symbol. -/
theorem interleavings_agree (ob : OrderBook) (ops ops' : List BookOp)
    (same : ∀ symbol, ops.filter (fun op => op.symbol = symbol) =
      ops'.filter fun op => op.symbol = symbol) (symbol : Bytes) :
    about BookOp.symbol symbol (transcript OrderBook.call ob ops).1 =
        about BookOp.symbol symbol (transcript OrderBook.call ob ops').1 ∧
      (transcript OrderBook.call ob ops).2.sideBook symbol =
        (transcript OrderBook.call ob ops').2.sideBook symbol ∧
      (transcript OrderBook.call ob ops).2.topOfBook symbol =
        (transcript OrderBook.call ob ops').2.topOfBook symbol := by
  obtain ⟨answers, levels⟩ := about_transcript_eq OrderBook.call_separate ob (same symbol)
  refine ⟨answers, levels, ?_⟩
  rw [OrderBook.topOfBook_eq, OrderBook.topOfBook_eq]
  exact congrArg (fun sb => (bestPrice sb.bids, bestPrice sb.asks)) levels

/-- A level and an order for one symbol, and a level for another. -/
def aaplOps : List BookOp :=
  [.setLevel (bytes "AAPL") false (.finite 100) 7,
    .order ⟨bytes "cli1", .buy, bytes "AAPL", .finite 100, 5⟩]

def msftLevel : BookOp := .setLevel (bytes "MSFT") true (.finite 50) 3

theorem interleavings_agree_on_two_symbols :
    (transcript OrderBook.call .empty (aaplOps ++ [msftLevel])).2.topOfBook (bytes "MSFT") =
      (transcript OrderBook.call .empty (msftLevel :: aaplOps)).2.topOfBook (bytes "MSFT") := by
  refine (interleavings_agree .empty (aaplOps ++ [msftLevel]) (msftLevel :: aaplOps) ?_
    (bytes "MSFT")).2.2
  intro symbol
  by_cases aapl : bytes "AAPL" = symbol
  · subst aapl
    rfl
  · by_cases msft : bytes "MSFT" = symbol <;>
      simp [aaplOps, msftLevel, BookOp.symbol, aapl, msft]

end EtradePipeline
