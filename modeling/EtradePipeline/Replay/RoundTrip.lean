import EtradePipeline.Receiver.Width
import EtradePipeline.Replay.Extractors

/-! A record file that is replayed gives its events again, but for those whose symbol is the name of
a field behind it: the search for that field finds the symbol. -/

namespace EtradePipeline

open Kit.FlatMap (flatMap_eq_iff)
open Kit.Getline (getlines getlines_flatMap)
open Kit.Search (notMem_intercalate behind quoted behindPiece behindPiece_append behind_quoted)
open Kit.Split (splitOn_between splitOn_eq_takeWhile_cons)

/-- The fields of an event that a datagram carries. -/
def Event.fields (ev : Event) : Fields := ⟨ev.seq, ev.msgTsMs, ev.symbolStr, ev.price, ev.size⟩

/-- An accepted event with an ordinary symbol, whose price is the one that its two decimals convert
to. -/
structure Event.Replayable (ev : Event) : Prop where
  accepted : ∃ payload recvTsMs source, receiveEvent stod payload recvTsMs source = some ev
  seq : InLongRange ev.seq
  msgTsMs : InLongRange ev.msgTsMs
  recvTsMs : InLongRange ev.recvTsMs
  latencyMs : InLongRange ev.latencyMs
  size : InLongRange ev.size
  symbol_nonempty : ev.symbolStr ≠ []
  symbol_free : ∀ c ∈ ev.symbolStr, c ≠ byte '"' ∧ c ≠ byte '|' ∧ c ≠ byte '\n'
  price : ∃ q : ℚ, ev.price = .finite q ∧ |q| < 10 ^ 15
  converts : stod (printPrice ev.price) = some ev.price

/-- An accepted event with a finite price, the record of which is one line. -/
structure Event.Legible (ev : Event) : Prop where
  accepted : ∃ payload recvTsMs source, receiveEvent stod payload recvTsMs source = some ev
  unbroken : byte '\n' ∉ ev.symbolStr
  price : ∃ q : ℚ, ev.price = .finite q

theorem Event.Replayable.legible {ev : Event} (h : ev.Replayable) : ev.Legible where
  accepted := h.accepted
  unbroken newline := (h.symbol_free _ newline).2.2 rfl
  price := h.price.imp fun _ => And.left

/-- The integers that the receiver reads and computes are in the range of their type. -/
theorem fits_of_received {payload : Bytes} {recvTsMs : Int} {source : Source} {ev : Event}
    (received : receiveEvent stod payload recvTsMs source = some ev) :
    FitsLong ev.seq ∧ FitsLong ev.msgTsMs ∧ FitsLong ev.latencyMs ∧ FitsLong ev.size := by
  obtain ⟨fields, parsed, rfl⟩ := receiveEvent_eq_some.mp received
  obtain ⟨_, _, _, _, -, seq, msgTs, -, size⟩ := parse_eq_ok.mp parsed
  exact ⟨fits_of_toLl seq, fits_of_toLl msgTs, fits_wrap64 _, fits_of_toLl size⟩

/-- The symbol is the name of a field that the record has behind it. -/
def Event.NamedAsField (ev : Event) : Prop :=
  ev.symbolStr = bytes "price" ∨ ev.symbolStr = bytes "size"

/-! ### The record -/

/-- The pieces of a record before its symbol. -/
def piecesBefore (ev : Event) : List Bytes := (recordPieces ev).take 11

/-- The pieces behind it, up to the newline. -/
def piecesBehind (ev : Event) : List Bytes := (recordPieces ev).drop 12

theorem piecesBefore_ne_nil (ev : Event) : piecesBefore ev ≠ [] := List.cons_ne_nil _ _

theorem piecesBehind_ne_nil (ev : Event) : piecesBehind ev ≠ [] := List.cons_ne_nil _ _

theorem recordLineText_eq (ev : Event) : recordLineText ev =
    [byte '"'].intercalate (piecesBefore ev) ++ byte '"' :: (ev.symbolStr ++ byte '"' ::
      [byte '"'].intercalate (piecesBehind ev)) := by
  simp [recordLineText, piecesBefore, piecesBehind, recordPieces, Event.symbolStr]

/-- The pieces of the record between its quotes, those of its symbol among them. -/
def linePieces (ev : Event) : List Bytes :=
  piecesBefore ev ++ (ev.symbolStr.splitOn (byte '"') ++ piecesBehind ev)

theorem numberPiece_ne {word : Bytes} (letter : word.head? ≠ some (byte ':')) (x : Bytes) :
    numberPiece x ≠ word := by
  rintro rfl
  exact letter rfl

/-- A word other than the keys is none of the pieces before the symbol. -/
theorem notMem_piecesBefore {word : Bytes} (letter : word.head? ≠ some (byte ':'))
    (other : word ∉ [bytes "\x7b", bytes "seq", bytes "msg_ts_ms", bytes "recv_ts_ms",
      bytes "latency_ms", bytes "symbol", bytes ":"]) (ev : Event) : word ∉ piecesBefore ev := by
  have number : ∀ x, word ≠ numberPiece x := fun x => (numberPiece_ne letter x).symm
  simpa [piecesBefore, recordPieces, number] using other

/-- Neither a quote nor a newline. -/
def Unbroken (s : Bytes) : Prop := byte '"' ∉ s ∧ byte '\n' ∉ s

section

variable {payload : Bytes} {recvTsMs : Int} {source : Source} {ev : Event} {q : ℚ}
  (received : receiveEvent stod payload recvTsMs source = some ev) (finite : ev.price = .finite q)

include received finite

theorem otherPieces_unbroken : ∀ piece ∈ piecesBefore ev ++ piecesBehind ev, Unbroken piece := by
  intro piece member
  have plain := otherPieces_subset received finite piece member
  exact ⟨fun quote => absurd (plain quote) (by decide), fun newline =>
    absurd (plain newline) (by decide)⟩

theorem piecesBefore_unbroken : ∀ piece ∈ piecesBefore ev, Unbroken piece :=
  (List.forall_mem_append.mp (otherPieces_unbroken received finite)).1

theorem piecesBehind_unbroken : ∀ piece ∈ piecesBehind ev, Unbroken piece :=
  (List.forall_mem_append.mp (otherPieces_unbroken received finite)).2

theorem splitOn_recordLineText : (recordLineText ev).splitOn (byte '"') = linePieces ev := by
  rw [recordLineText_eq]
  exact splitOn_between (fun piece member => (piecesBefore_unbroken received finite piece member).1)
    (fun piece member => (piecesBehind_unbroken received finite piece member).1)
    (piecesBefore_ne_nil ev) (piecesBehind_ne_nil ev) _

end

theorem Event.Legible.line_unbroken {ev : Event} (h : ev.Legible) :
    byte '\n' ∉ recordLineText ev := by
  obtain ⟨payload, recvTsMs, source, received⟩ := h.accepted
  obtain ⟨q, finite⟩ := h.price
  have quote : byte '\n' ≠ byte '"' := by decide
  have front := notMem_intercalate quote fun piece member =>
    (piecesBefore_unbroken received finite piece member).2
  have back := notMem_intercalate quote fun piece member =>
    (piecesBehind_unbroken received finite piece member).2
  rw [recordLineText_eq]
  simp [front, back, quote, h.unbroken]

/-! ### The lines -/

namespace Event.Legible

variable {ev : Event}

theorem fits (h : ev.Legible) : FitsLong ev.seq ∧ FitsLong ev.msgTsMs ∧ FitsLong ev.latencyMs ∧
    FitsLong ev.size := by
  obtain ⟨payload, recvTsMs, source, received⟩ := h.accepted
  exact fits_of_received received

theorem behind_of_piece (h : ev.Legible) {word piece next : Bytes} {more : List Bytes}
    (free : byte '"' ∉ word)
    (found : behindPiece word (linePieces ev) = some (piece :: next :: more)) :
    behind (quoted (byte '"') word) (recordLineText ev) =
      some (piece ++ byte '"' :: [byte '"'].intercalate (next :: more)) := by
  obtain ⟨payload, recvTsMs, source, received⟩ := h.accepted
  obtain ⟨q, finite⟩ := h.price
  rw [behind_quoted free, splitOn_recordLineText received finite, found, Option.map_some,
    List.intercalate_cons_cons, List.append_assoc, List.singleton_append]

theorem extract_seq (h : ev.Legible) :
    extractLonlongField (recordLineText ev) (bytes "\"seq\"") = some ev.seq := by
  have found : behindPiece (bytes "seq") (linePieces ev) =
      some (numberPiece (printInt ev.seq) :: bytes "msg_ts_ms" :: (linePieces ev).drop 4) := by
    simp [behindPiece, linePieces, piecesBefore, recordPieces]
  exact extractLonlongField_of_behind h.fits.1 (h.behind_of_piece (by decide) found)

theorem extract_msgTs (h : ev.Legible) :
    extractLonlongField (recordLineText ev) (bytes "\"msg_ts_ms\"") = some ev.msgTsMs := by
  have first : bytes "seq" ≠ bytes "msg_ts_ms" := by decide
  have number := @numberPiece_ne (bytes "msg_ts_ms") (by decide)
  have found : behindPiece (bytes "msg_ts_ms") (linePieces ev) =
      some (numberPiece (printInt ev.msgTsMs) :: bytes "recv_ts_ms" :: (linePieces ev).drop 6) := by
    simp [behindPiece, linePieces, piecesBefore, recordPieces, first, number]
  exact extractLonlongField_of_behind h.fits.2.1 (h.behind_of_piece (by decide) found)

/-- The symbol is found up to its first quote. -/
theorem extract_symbol (h : ev.Legible) :
    extractStringField (recordLineText ev) (bytes "\"symbol\"") =
      some (ev.symbolStr.takeWhile (· ≠ byte '"')) := by
  have keys : bytes "seq" ≠ bytes "symbol" ∧ bytes "msg_ts_ms" ≠ bytes "symbol" ∧
      bytes "recv_ts_ms" ≠ bytes "symbol" ∧ bytes "latency_ms" ≠ bytes "symbol" := by decide
  have number := @numberPiece_ne (bytes "symbol") (by decide)
  obtain ⟨more, cut⟩ := splitOn_eq_takeWhile_cons (d := byte '"') ev.symbolStr
  obtain ⟨next, rest, behind⟩ :=
    List.exists_cons_of_ne_nil (List.append_ne_nil_of_right_ne_nil more (piecesBehind_ne_nil ev))
  have found : behindPiece (bytes "symbol") (linePieces ev) =
      some (bytes ":" :: ev.symbolStr.takeWhile (· ≠ byte '"') :: next :: rest) := by
    simp [behindPiece, linePieces, piecesBefore, recordPieces, keys, number, cut, behind]
  have text := h.behind_of_piece (by decide) found
  rw [List.intercalate_cons_cons, List.append_assoc, List.singleton_append] at text
  refine extractStringField_of_behind (fun quote => ?_) text
  simpa using List.mem_takeWhile_imp quote

/-- The search for a field behind the symbol comes to the pieces of the symbol first. -/
theorem behindPiece_late {word : Bytes} (before : word ∉ piecesBefore ev)
    (other : word ∉ ev.symbolStr.splitOn (byte '"')) :
    behindPiece word (linePieces ev) = behindPiece word ([] :: piecesBehind ev) := by
  have front : word ∉ piecesBefore ev ++ ev.symbolStr.splitOn (byte '"') := by
    simp [before, other]
  have filled := List.append_ne_nil_of_left_ne_nil (piecesBefore_ne_nil ev)
    (ev.symbolStr.splitOn (byte '"'))
  rw [linePieces, ← List.append_assoc, behindPiece_append filled front]

theorem behindPiece_named {word : Bytes} (before : word ∉ piecesBefore ev)
    (free : byte '"' ∉ word) (named : ev.symbolStr = word) :
    behindPiece word (linePieces ev) = some (piecesBehind ev) := by
  rw [linePieces, named, List.splitOn_eq_singleton free,
    behindPiece_append (piecesBefore_ne_nil ev) before _ []]
  simp [behindPiece, piecesBehind, recordPieces]

theorem extract_price (h : ev.Legible) (other : bytes "price" ∉ ev.symbolStr.splitOn (byte '"')) :
    extractDoubleField (recordLineText ev) (bytes "\"price\"") = stod (printPrice ev.price) := by
  obtain ⟨q, finite⟩ := h.price
  have comma : bytes "," ≠ bytes "price" := by decide
  have found : behindPiece (bytes "price") (linePieces ev) =
      some (numberPiece (printPrice ev.price) :: bytes "size" :: (piecesBehind ev).drop 4) := by
    rw [behindPiece_late (notMem_piecesBefore (by decide) (by decide) ev) other]
    simp [behindPiece, piecesBehind, recordPieces, comma]
  refine extractDoubleField_of_behind ?_ ?_ (h.behind_of_piece (by decide) found)
  · rw [finite]
    exact printPrice_subset q
  · rw [finite, printPrice]
    simp [bytes]

theorem extract_size (h : ev.Legible) (other : bytes "size" ∉ ev.symbolStr.splitOn (byte '"')) :
    extractLonlongField (recordLineText ev) (bytes "\"size\"") = some ev.size := by
  have keys : bytes "," ≠ bytes "size" ∧ bytes "price" ≠ bytes "size" := by decide
  have number := @numberPiece_ne (bytes "size") (by decide)
  have found : behindPiece (bytes "size") (linePieces ev) =
      some (numberPiece (printInt ev.size) :: bytes "src" :: (piecesBehind ev).drop 6) := by
    rw [behindPiece_late (notMem_piecesBefore (by decide) (by decide) ev) other]
    simp [behindPiece, piecesBehind, recordPieces, keys, number]
  exact extractLonlongField_of_behind h.fits.2.2.2 (h.behind_of_piece (by decide) found)

/-- Without a quoted `price` or `size` in the symbol the fields of the event are found, but for what
the symbol has behind a quote. -/
theorem lineFields_of_other (h : ev.Legible)
    (price : bytes "price" ∉ ev.symbolStr.splitOn (byte '"'))
    (size : bytes "size" ∉ ev.symbolStr.splitOn (byte '"')) :
    lineFields (recordLineText ev) = (stod (printPrice ev.price)).map fun price =>
      ⟨ev.seq, ev.msgTsMs, ev.symbolStr.takeWhile (· ≠ byte '"'), price, ev.size⟩ := by
  rw [lineFields, h.extract_seq, h.extract_msgTs, h.extract_price price, h.extract_size size,
    h.extract_symbol]
  cases stod (printPrice ev.price) <;> rfl

/-- The search for the field that the symbol is named as comes to the comma behind the symbol. -/
theorem lineFields_of_named (h : ev.Legible) (named : ev.NamedAsField) :
    lineFields (recordLineText ev) = none := by
  obtain price | size := named
  · have found := behindPiece_named (notMem_piecesBefore (by decide) (by decide) ev) (by decide)
      price
    have none : extractDoubleField (recordLineText ev) (bytes "\"price\"") = none :=
      extractDoubleField_of_comma (h.behind_of_piece (by decide) found)
    rw [lineFields, h.extract_seq, h.extract_msgTs, none]
    rfl
  · have found := behindPiece_named (notMem_piecesBefore (by decide) (by decide) ev) (by decide)
      size
    have none : extractLonlongField (recordLineText ev) (bytes "\"size\"") = none :=
      extractLonlongField_of_comma (h.behind_of_piece (by decide) found)
    rw [lineFields, h.extract_seq, h.extract_msgTs, none]
    cases extractDoubleField (recordLineText ev) (bytes "\"price\"") <;> rfl

end Event.Legible

/-! ### Lengths -/

/-- What varies in the datagram of five values. -/
def datagramWidth (f : Fields) : Nat :=
  intWidth f.seq + intWidth f.msgTs + (f.symbol.takeWhile (· ≠ 0)).length + priceWidth f.price +
    intWidth f.size

theorem length_datagramText (f : Fields) :
    (datagramText f.seq f.msgTs f.symbol f.price f.size).length = datagramWidth f + 4 := by
  simp only [datagramText, datagramWidth, List.intercalate_cons_cons, List.intercalate_singleton,
    List.length_append, List.length_singleton, length_printInt, length_printPrice]
  omega

theorem FitsLong.intWidth_le {x : Int} (fits : FitsLong x) : intWidth x ≤ 20 := by
  unfold FitsLong llongMin at fits
  exact EtradePipeline.intWidth_le (by omega) (by omega)

theorem InLongRange.intWidth_le {x : Int} (inRange : InLongRange x) : intWidth x ≤ 20 := by
  unfold InLongRange at inRange
  exact EtradePipeline.intWidth_le (by omega) (by omega)

/-! ### The datagrams -/

namespace Event.Replayable

variable {ev : Event}

theorem messageOf_line (h : ev.Replayable) :
    messageOf (recordLineText ev) =
      if ev.symbolStr = bytes "price" ∨ ev.symbolStr = bytes "size" then none
      else some (datagramText ev.seq ev.msgTsMs ev.symbolStr ev.price ev.size) := by
  have free : byte '"' ∉ ev.symbolStr := fun quote => (h.symbol_free _ quote).1 rfl
  split_ifs with named
  · rw [messageOf, h.legible.lineFields_of_named named]
    rfl
  · obtain ⟨price, size⟩ := not_or.mp named
    have whole : ev.symbolStr.takeWhile (· ≠ byte '"') = ev.symbolStr :=
      List.takeWhile_eq_self_iff.mpr fun c member => decide_eq_true (h.symbol_free c member).1
    have fields := h.legible.lineFields_of_other
      (by simpa [List.splitOn_eq_singleton free] using Ne.symm price)
      (by simpa [List.splitOn_eq_singleton free] using Ne.symm size)
    rw [messageOf, fields, h.converts, whole]
    rfl

theorem datagram_short (h : ev.Replayable) :
    (datagramText ev.seq ev.msgTsMs ev.symbolStr ev.price ev.size).length < 256 := by
  obtain ⟨q, price, below⟩ := h.price
  have seq := h.seq.intWidth_le
  have msgTs := h.msgTsMs.intWidth_le
  have size := h.size.intWidth_le
  have priced := priceWidth_le below
  have symbol : (ev.symbolStr.takeWhile (· ≠ 0)).length < 32 :=
    Nat.lt_of_le_of_lt (List.takeWhile_sublist _).length_le ev.symbol.cstr_length_lt
  rw [← price] at priced
  have length : (datagramText ev.seq ev.msgTsMs ev.symbolStr ev.price ev.size).length =
      datagramWidth ev.fields + 4 := length_datagramText ev.fields
  simp only [datagramWidth, Event.fields] at length
  omega

theorem parse_datagram (h : ev.Replayable) :
    parse stod (datagramText ev.seq ev.msgTsMs ev.symbolStr ev.price ev.size) = .ok ev.fields := by
  have number : ∀ x, byte '|' ∉ printInt x := notMem_printInt (by decide)
  have priced : byte '|' ∉ printPrice ev.price := notMem_printPrice (by decide) _
  have symbol : byte '|' ∉ ev.symbolStr := fun member => (h.symbol_free _ member).2.1 rfl
  have text : ev.symbolStr.takeWhile (· ≠ 0) = ev.symbolStr := List.takeWhile_idem
  refine parse_eq_ok.mpr ⟨printInt ev.seq, printInt ev.msgTsMs, printPrice ev.price,
    printInt ev.size, ?_, toLl_printInt h.seq.1.le h.seq.2,
      toLl_printInt h.msgTsMs.1.le h.msgTsMs.2,
    h.converts, toLl_printInt h.size.1.le h.size.2⟩
  rw [datagramText, text]
  refine List.splitOn_intercalate _ ?_ (List.cons_ne_nil _ _)
  simp only [List.forall_mem_cons]
  exact ⟨number _, number _, symbol, priced, number _, List.forall_mem_nil _⟩

theorem received_line (h : ev.Replayable) :
    (replayLine (recordLineText ev)).received =
      if ev.symbolStr = bytes "price" ∨ ev.symbolStr = bytes "size" then [] else [ev.fields] := by
  have filled : recordLineText ev ≠ [] := by simp [recordLineText, recordPieces, bytes]
  rw [replayLine, if_neg filled, h.messageOf_line]
  split_ifs
  · rfl
  · simp only [if_pos h.datagram_short, Replayed.received, h.parse_datagram]
    rfl

/-! ### The record file -/

theorem record_fits (h : ev.Replayable) : (recordText ev).length < 512 := by
  obtain ⟨q, price, below⟩ := h.price
  have seq := h.seq.intWidth_le
  have msgTs := h.msgTsMs.intWidth_le
  have recvTs := h.recvTsMs.intWidth_le
  have latency := h.latencyMs.intWidth_le
  have size := h.size.intWidth_le
  have priced := priceWidth_le below
  have symbol : ev.symbolStr.length < 32 := ev.symbol.cstr_length_lt
  have src : ev.src.cstr.length < 64 := ev.src.cstr_length_lt
  rw [← price] at priced
  rw [length_recordText, recordWidth]
  omega

end Event.Replayable

theorem recordFile_eq {evs : List Event} (replayable : ∀ ev ∈ evs, ev.Replayable) :
    recordFile evs = some (evs.flatMap fun ev => recordLineText ev ++ [byte '\n']) := by
  induction evs with
  | nil => rfl
  | cons ev evs ih =>
    obtain ⟨first, others⟩ := List.forall_mem_cons.mp replayable
    rw [recordFile, record_written first.record_fits, ih others, recordText_eq]
    rfl

/-- A record file that is replayed gives the receiver the fields of its events again, exactly when
no event has the name of a field behind it for its symbol. -/
theorem replay_round_trip_iff (evs : List Event) (replayable : ∀ ev ∈ evs, ev.Replayable) :
    ∃ file, recordFile evs = some file ∧
      (replayedFields file = evs.map Event.fields ↔ ∀ ev ∈ evs, ¬ ev.NamedAsField) := by
  refine ⟨_, recordFile_eq replayable, ?_⟩
  have received : ∀ ev ∈ evs, (replayLine (recordLineText ev)).received =
      if ev.symbolStr = bytes "price" ∨ ev.symbolStr = bytes "size" then [] else [ev.fields] :=
    fun ev member => (replayable ev member).received_line
  have unbroken : ∀ ev ∈ evs, byte '\n' ∉ recordLineText ev :=
    fun ev member => (replayable ev member).legible.line_unbroken
  rw [replayedFields, replay, getlines_flatMap _ _ unbroken, List.map_map, List.flatMap_map,
    List.map_eq_flatMap, flatMap_eq_iff]
  · refine forall₂_congr fun ev member => ?_
    rw [Function.comp_apply, received ev member]
    unfold Event.NamedAsField
    split_ifs with named <;> simp [named]
  · intro ev member
    rw [Function.comp_apply, received ev member]
    split_ifs <;> simp

theorem plainEvent_replayable {symbol : String}
    (accepted : receiveEvent stod (bytes ("1|1000|" ++ symbol ++ "|100|7")) 1005
      ⟨(127, 0, 0, 1), 40000⟩ = some (plainEvent symbol))
    (nonempty : (plainEvent symbol).symbolStr ≠ [])
    (free : ∀ c ∈ (plainEvent symbol).symbolStr, c ≠ byte '"' ∧ c ≠ byte '|' ∧ c ≠ byte '\n') :
    (plainEvent symbol).Replayable where
  accepted := ⟨_, _, _, accepted⟩
  seq := (by decide : InLongRange 1)
  msgTsMs := (by decide : InLongRange 1000)
  recvTsMs := (by decide : InLongRange 1005)
  latencyMs := (by decide : InLongRange 5)
  size := (by decide : InLongRange 7)
  symbol_nonempty := nonempty
  symbol_free := free
  price := ⟨100, rfl, by rw [abs_of_pos] <;> norm_num⟩
  converts := (by decide +kernel : stod (printPrice (.finite 100)) = some (.finite 100))

theorem replay_round_trip_iff_on_quote :
    ∃ file, recordFile [plainEvent "AAPL"] = some file ∧
      replayedFields file = [⟨1, 1000, bytes "AAPL", .finite 100, 7⟩] := by
  have replayable : ∀ ev ∈ [plainEvent "AAPL"], ev.Replayable := List.forall_mem_singleton.mpr
    (plainEvent_replayable (by decide +kernel) (by decide +kernel) (by decide +kernel))
  obtain ⟨file, written, round⟩ := replay_round_trip_iff _ replayable
  refine ⟨file, written, (round.mpr (List.forall_mem_singleton.mpr ?_)).trans (by decide +kernel)⟩
  unfold Event.NamedAsField
  decide

/-- The record of an event with the symbol `price` is skipped. -/
theorem symbol_price_skipped :
    (plainEvent "price").Replayable ∧
    ∃ file, recordFile [plainEvent "price"] = some file ∧ replay file = [.skipped] ∧
      replayedFields file ≠ [(plainEvent "price").fields] := by
  refine ⟨plainEvent_replayable (by decide +kernel) (by decide +kernel) (by decide +kernel), ?_⟩
  refine ⟨recordText (plainEvent "price"), ?_, ?_, ?_⟩ <;> decide +kernel

end EtradePipeline
