import EtradePipeline.Kit.Search
import EtradePipeline.Receiver.Grammar
import EtradePipeline.Receiver.Printed

/-! The text of a record, cut at its quotes.  Beside the symbol its pieces have letters, digits and
marks only. -/

namespace EtradePipeline

/-- The event of a datagram of 7 at 100.00 for a symbol. -/
def plainEvent (symbol : String) : Event :=
  ⟨1, 1000, 1005, 5, setSymbol (bytes symbol), .finite 100, 7, setSrc (bytes "127.0.0.1:40000")⟩

/-- A number in a record, with what is before and behind it. -/
def numberPiece (x : Bytes) : Bytes := byte ':' :: (x ++ [byte ','])

/-- The record's line, cut at the quotes. -/
def recordPieces (ev : Event) : List Bytes :=
  [bytes "\x7b", bytes "seq", numberPiece (printInt ev.seq),
    bytes "msg_ts_ms", numberPiece (printInt ev.msgTsMs),
    bytes "recv_ts_ms", numberPiece (printInt ev.recvTsMs),
    bytes "latency_ms", numberPiece (printInt ev.latencyMs),
    bytes "symbol", bytes ":", ev.symbol.cstr, bytes ",",
    bytes "price", numberPiece (printPrice ev.price),
    bytes "size", numberPiece (printInt ev.size),
    bytes "src", bytes ":", ev.src.cstr, bytes "\x7d"]

/-- The record without its newline. -/
def recordLineText (ev : Event) : Bytes := [byte '"'].intercalate (recordPieces ev)

theorem recordText_eq (ev : Event) : recordText ev = recordLineText ev ++ [byte '\n'] := by
  simp [recordText, recordLineText, recordPieces, numberPiece, bytes, byte]

theorem record_written {ev : Event} (fits : (recordText ev).length < 512) :
    (recordLine ev).written = some (recordText ev) := by
  have copied : (recordText ev).take 511 = recordText ev :=
    List.take_of_length_le (Nat.le_of_lt_succ fits)
  simp [Line.written, recordLine, Line.print, CharBuf.copy, copied]

/-! ### The pieces -/

theorem printInt_subset (x : Int) : printInt x ⊆ numeralBytes :=
  printedInt_text x ▸ (printedInt x).text_subset

theorem printPrice_subset (q : ℚ) : printPrice (.finite q) ⊆ numeralBytes :=
  printedPrice_text q ▸ (printedPrice q).text_subset

/-- The symbol that is kept of a field without NULs is its first 31 characters. -/
theorem cstr_setSymbol {symbol : Bytes} (noNul : ∀ c ∈ symbol, c ≠ 0) :
    (setSymbol symbol).cstr = symbol.take 31 :=
  List.takeWhile_eq_self_iff.mpr fun c member =>
    decide_eq_true (noNul c (List.mem_of_mem_take member))

theorem notMem_printInt {c : UInt8} (other : c ∉ numeralBytes) (x : Int) : c ∉ printInt x :=
  fun member => other (printInt_subset x member)

theorem notMem_printPrice {c : UInt8} (other : c ∉ numeralBytes ++ bytes "naif") (price : Double) :
    c ∉ printPrice price := by
  have names : printPrice .nan ++ printPrice .posInf ++ printPrice .negInf ⊆
      numeralBytes ++ bytes "naif" := by
    decide +kernel
  cases price with
  | finite q => exact fun member => other (List.mem_append_left _ (printPrice_subset q member))
  | nan | posInf | negInf => exact fun member => other (names (by simp [member]))

/-- A source is printed in digits, points and a colon. -/
theorem srcMerged_subset (source : Source) : source.srcMerged ⊆ byte ':' :: numeralBytes := by
  have number : ∀ n, printNat n ⊆ byte ':' :: numeralBytes := fun n c member =>
    List.mem_cons_of_mem _ (digitText_subset _ (printNat_eq n ▸ member))
  have point : bytes "." ⊆ byte ':' :: numeralBytes := by decide
  have colon : bytes ":" ⊆ byte ':' :: numeralBytes := by decide
  simp only [Source.srcMerged, Source.srcIp, List.append_subset]
  exact ⟨⟨⟨⟨⟨⟨⟨⟨number _, point⟩, number _⟩, point⟩, number _⟩, point⟩, number _⟩, colon⟩, number _⟩

/-- The bytes of a record beside its quotes, its symbol and its newline. -/
def recordBytes : Bytes :=
  byte ':' :: (numeralBytes ++ bytes "\x7b\x7d,_abcdefghijklmnopqrstuvwxyz")

theorem numeralBytes_subset : numeralBytes ⊆ recordBytes := fun _ member =>
  List.mem_cons_of_mem _ (List.mem_append_left _ member)

theorem numberPiece_subset {x : Bytes} (plain : x ⊆ numeralBytes) :
    numberPiece x ⊆ recordBytes := by
  refine List.cons_subset.mpr ⟨by decide, List.append_subset.mpr ⟨?_, by decide⟩⟩
  exact fun _ member => numeralBytes_subset (plain member)

theorem recordPieces_eq (ev : Event) : recordPieces ev =
    (recordPieces ev).take 11 ++ ev.symbol.cstr :: (recordPieces ev).drop 12 := rfl

section

variable {toDouble : Bytes → Option Double} {payload : Bytes} {recvTsMs : Int} {source : Source}
  {ev : Event} {q : ℚ}

theorem src_subset (received : receiveEvent toDouble payload recvTsMs source = some ev) :
    ev.src.cstr ⊆ recordBytes := by
  obtain ⟨fields, -, rfl⟩ := receiveEvent_eq_some.mp received
  intro c member
  have printed :=
    srcMerged_subset source (List.mem_of_mem_take ((List.takeWhile_sublist _).subset member))
  rcases List.mem_cons.mp printed with rfl | numeral
  · exact List.mem_cons_self
  · exact numeralBytes_subset numeral

/-- The pieces of an accepted event's record beside its symbol have letters, digits and marks
only. -/
theorem otherPieces_subset (received : receiveEvent toDouble payload recvTsMs source = some ev)
    (price : ev.price = .finite q) :
    ∀ piece ∈ (recordPieces ev).take 11 ++ (recordPieces ev).drop 12, piece ⊆ recordBytes := by
  have number : ∀ x, numberPiece (printInt x) ⊆ recordBytes := fun x =>
    numberPiece_subset (printInt_subset x)
  have priced : numberPiece (printPrice ev.price) ⊆ recordBytes := by
    rw [price]
    exact numberPiece_subset (printPrice_subset q)
  simp only [recordPieces, List.take, List.drop, List.cons_append, List.nil_append,
    List.forall_mem_cons]
  refine ⟨?_, ?_, number _, ?_, number _, ?_, number _, ?_, number _, ?_, ?_, ?_, ?_, priced,
    ?_, number _, ?_, ?_, src_subset received, ?_, List.forall_mem_nil _⟩
  all_goals decide

theorem recordPieces_subset (received : receiveEvent toDouble payload recvTsMs source = some ev)
    (price : ev.price = .finite q) :
    ∀ piece ∈ recordPieces ev, piece = ev.symbol.cstr ∨ piece ⊆ recordBytes := by
  intro piece member
  have other := otherPieces_subset received price piece
  rw [recordPieces_eq, List.mem_append, List.mem_cons] at member
  obtain early | same | late := member
  · exact .inr (other (List.mem_append_left _ early))
  · exact .inl same
  · exact .inr (other (List.mem_append_right _ late))

end

end EtradePipeline
