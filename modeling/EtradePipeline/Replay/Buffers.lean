import EtradePipeline.Receiver.ReadBack
import EtradePipeline.Replay.Lines

/-! When the formatted texts fit their buffers: the record line in its 512 bytes, and the datagram
that is made of it again in its 256.  Both are read back by the length that `snprintf` reports,
which is that of the whole text.  All fields but the price are short, so that it comes to the digits
of the price before its point. -/

namespace EtradePipeline

open Kit.Getline (getlines)

/-- The texts made of an event fit: the record line, which is written as it is, and each datagram
that is made of what was written, which is sent as it is. -/
structure Event.BuffersFit (ev : Event) : Prop where
  record : (recordLine ev).wrote < 512
  written : (recordLine ev).written = some (recordText ev)
  datagrams : ∀ line ∈ getlines (byte '\n') [] (recordText ev), ∀ text, messageOf line = some text →
    text.length < 256
  sent : .overread ∉ replay (recordText ev)

/-- A line whose message fits is not read beyond it. -/
theorem replayLine_ne_overread {line : Bytes}
    (fits : ∀ text, messageOf line = some text → text.length < 256) :
    replayLine line ≠ .overread := by
  unfold replayLine
  split_ifs
  · exact Replayed.noConfusion
  · split
    · exact Replayed.noConfusion
    · rename_i text found
      rw [if_pos (fits text found)]
      exact Replayed.noConfusion

/-- The condition on every line that is read back of the record. -/
theorem buffersFit_iff_of_lines (ev : Event) : ev.BuffersFit ↔ recordWidth ev ≤ 423 ∧
    ∀ line ∈ getlines (byte '\n') [] (recordLineText ev), ∀ f, lineFields line = some f →
      datagramWidth f ≤ 251 := by
  rw [← getlines_recordText]
  have length := length_recordText ev
  have wrote : (recordLine ev).wrote = (recordText ev).length := by rw [recordLine, Line.print]
  constructor
  · intro fit
    have record := fit.record
    rw [wrote] at record
    refine ⟨by omega, fun line member f found => ?_⟩
    have short := fit.datagrams line member _ (by rw [messageOf, found, Option.map_some])
    rw [length_datagramText] at short
    omega
  · rintro ⟨record, datagrams⟩
    have fits : (recordText ev).length < 512 := by omega
    have short : ∀ line ∈ getlines (byte '\n') [] (recordText ev),
        ∀ text, messageOf line = some text → text.length < 256 := by
      intro line member text message
      obtain ⟨f, found, rfl⟩ := Option.map_eq_some_iff.mp message
      have width := datagrams line member f found
      rw [length_datagramText]
      omega
    refine ⟨wrote ▸ fits, record_written fits, short, fun overread => ?_⟩
    obtain ⟨line, member, same⟩ := List.mem_map.mp overread
    exact replayLine_ne_overread (short line member) same

/-! ### The room for the price -/

/-- The fields of an event as they are read back of its record: the symbol up to its first quote and
the price that its two decimals convert to. -/
def Event.sentFields (ev : Event) : Fields :=
  ⟨ev.seq, ev.msgTsMs, ev.symbolStr.takeWhile (· ≠ byte '"'), ev.price.readBack, ev.size⟩

/-- One for the minus sign of a price. -/
def Double.signWidth : Double → Nat
  | .finite q => if q < 0 then 1 else 0
  | .negInf => 1
  | .nan | .posInf => 0

/-- How many digits of its price before the point the record of the event has room for. -/
def Event.recordRoom (ev : Event) : Nat :=
  420 - (intWidth ev.seq + intWidth ev.msgTsMs + intWidth ev.recvTsMs + intWidth ev.latencyMs +
    ev.symbolStr.length + intWidth ev.size + ev.src.cstr.length + ev.price.signWidth)

/-- How many of them the datagram of the event's fields has room for, where the symbol ends at its
first quote. -/
def Event.datagramRoom (ev : Event) : Nat :=
  248 - (intWidth ev.seq + intWidth ev.msgTsMs + (ev.symbolStr.takeWhile (· ≠ byte '"')).length +
    intWidth ev.size + ev.price.signWidth)

/-- The symbol that is read back has no NUL and at most 31 characters. -/
theorem Event.takeWhile_sentSymbol (ev : Event) :
    (ev.symbolStr.takeWhile (· ≠ byte '"')).takeWhile (· ≠ 0) =
      ev.symbolStr.takeWhile (· ≠ byte '"') := by
  refine List.takeWhile_eq_self_iff.mpr fun c member => ?_
  have inside : c ∈ ev.symbol.copied.takeWhile (· ≠ 0) := (List.takeWhile_sublist _).subset member
  simpa using List.mem_takeWhile_imp inside

theorem Event.length_sentSymbol_le (ev : Event) :
    (ev.symbolStr.takeWhile (· ≠ byte '"')).length ≤ 31 :=
  (List.takeWhile_sublist _).length_le.trans (Nat.le_of_lt_succ ev.symbol.cstr_length_lt)

/-- A finite price with at most 156 digits before its point. -/
def Double.Narrow (price : Double) : Prop :=
  ∀ q, price = .finite q → |q| < 10 ^ 156 - 1 / 200

theorem Double.Narrow.priceWidth_le {price : Double} (narrow : price.Narrow) :
    priceWidth price ≤ 160 := by
  cases price with
  | finite q =>
    have digits := (wholeWidth_le_iff (by decide)).mpr (narrow q rfl)
    rw [priceWidth]
    split_ifs <;> omega
  | nan | negInf | posInf => decide

/-- A price that is read back stays below the bound. -/
theorem Double.Narrow.readBack {price : Double} (narrow : price.Narrow)
    (representable : price.Representable) : price.readBack.Narrow := by
  cases price with
  | finite q =>
    by_cases large : 2 ^ 53 ≤ |q|
    · rw [readBack_of_large representable.1 large]
      exact narrow
    · rintro x ⟨⟩
      calc |roundToDouble (roundHalfEven (q * 100) / 100)| ≤ 2 ^ 54 + 1 :=
            abs_readBack_of_small (not_le.mp large)
        _ < 10 ^ 156 - 1 / 200 := by norm_num
  | nan | negInf | posInf => exact nofun

section

variable {payload : Bytes} {recvTsMs : Int} {source : Source} {ev : Event} {q : ℚ}
  (received : receiveEvent stod payload recvTsMs source = some ev) (clock : FitsLong recvTsMs)
  (finite : ev.price = .finite q)

include received

theorem representable_of_received : ev.price.Representable := by
  obtain ⟨fields, parsed, rfl⟩ := receiveEvent_eq_some.mp received
  obtain ⟨_, _, _, _, -, -, -, converted, -⟩ := parse_eq_ok.mp parsed
  exact representable_of_stod converted

include clock

/-- The widths of the fields beside the price. -/
theorem widths_of_received : intWidth ev.seq ≤ 20 ∧ intWidth ev.msgTsMs ≤ 20 ∧
    intWidth ev.recvTsMs ≤ 20 ∧ intWidth ev.latencyMs ≤ 20 ∧ intWidth ev.size ≤ 20 ∧
      ev.symbolStr.length ≤ 31 ∧ ev.src.cstr.length ≤ 63 := by
  obtain ⟨seq, msgTs, latency, size⟩ := fits_of_received received
  have recvTs : FitsLong ev.recvTsMs := by
    obtain ⟨fields, -, rfl⟩ := receiveEvent_eq_some.mp received
    exact clock
  exact ⟨seq.intWidth_le, msgTs.intWidth_le, recvTs.intWidth_le, latency.intWidth_le,
    size.intWidth_le,
    Nat.le_of_lt_succ ev.symbol.cstr_length_lt, Nat.le_of_lt_succ ev.src.cstr_length_lt⟩

theorem rooms_of_received : 156 ≤ ev.datagramRoom ∧ 156 ≤ ev.recordRoom := by
  obtain ⟨seq, msgTs, recvTs, latency, size, symbol, src⟩ := widths_of_received received clock
  have sign : ev.price.signWidth ≤ 1 := by
    cases ev.price with
    | finite q =>
      rw [Double.signWidth]
      split_ifs <;> omega
    | nan | negInf | posInf => decide
  have sent := ev.length_sentSymbol_le
  unfold Event.datagramRoom Event.recordRoom
  omega

include finite

/-- The record fits exactly when the price is below a power of ten that depends on the other
fields. -/
theorem record_fits_iff : recordWidth ev ≤ 423 ↔ |q| < 10 ^ ev.recordRoom - 1 / 200 := by
  have room := (rooms_of_received received clock).2
  rw [← wholeWidth_le_iff (by omega)]
  unfold Event.recordRoom at room ⊢
  rw [recordWidth, finite, priceWidth] at *
  simp only [Double.signWidth] at *
  omega

/-- The same for the datagram of the event's own fields. -/
theorem datagram_fits_iff : datagramWidth ev.sentFields ≤ 251 ↔
    |q| < 10 ^ ev.datagramRoom - 1 / 200 := by
  have room := (rooms_of_received received clock).1
  obtain ⟨seq, msgTs, -, -, size, -, -⟩ := widths_of_received received clock
  have symbol := ev.length_sentSymbol_le
  have kept : (Double.finite q).Representable := finite ▸ representable_of_received received
  by_cases large : 2 ^ 53 ≤ |q|
  · rw [Event.sentFields, finite, readBack_of_large kept.1 large, ← wholeWidth_le_iff (by omega)]
    unfold Event.datagramRoom at room ⊢
    simp only [datagramWidth, ev.takeWhile_sentSymbol, finite, priceWidth, Double.signWidth] at *
    omega
  · -- A price of few digits fits whatever the other fields are.
    have narrow : ev.price.Narrow := by
      rintro x same
      obtain rfl := Double.finite.inj (finite.symm.trans same)
      exact (not_le.mp large).trans (by norm_num)
    have width := (narrow.readBack (representable_of_received received)).priceWidth_le
    refine iff_of_true ?_ ?_
    · simp only [datagramWidth, Event.sentFields, ev.takeWhile_sentSymbol]
      omega
    · have digits := (wholeWidth_le_iff (by decide)).mpr (narrow q finite)
      exact (wholeWidth_le_iff (by omega)).mp (digits.trans room)

/-- Where neither the price of the event nor one in its symbol has more than 156 digits, all
fits. -/
theorem buffersFit_of_narrow (narrow : ev.price.Narrow)
    (held : ∀ price, ev.Holds price → price.Narrow) :
    ev.BuffersFit := by
  refine (buffersFit_iff_of_lines ev).mpr ⟨?_, fun line member f found => ?_⟩
  · obtain ⟨seq, msgTs, recvTs, latency, size, symbol, src⟩ := widths_of_received received clock
    have price := narrow.priceWidth_le
    rw [recordWidth]
    omega
  · simp only [lineFields, Option.bind_eq_bind, Option.bind_eq_some_iff, Option.pure_def,
      Option.some.injEq] at found
    obtain ⟨seq, foundSeq, msgTs, foundTs, price, foundPrice, size, foundSize, sym, foundSym,
      rfl⟩ := found
    have price_le : priceWidth price ≤ 160 := by
      obtain own | other := price_of_line received finite member foundPrice
      · have kept := representable_of_received received
        rw [stod_printPrice kept] at own
        cases own
        exact (narrow.readBack kept).priceWidth_le
      · exact (held price other).priceWidth_le
    have seq_le := (fits_of_extractLonlongField foundSeq).intWidth_le
    have msgTs_le := (fits_of_extractLonlongField foundTs).intWidth_le
    have size_le := (fits_of_extractLonlongField foundSize).intWidth_le
    have sym_le : (sym.takeWhile (· ≠ 0)).length ≤ 31 :=
      (List.takeWhile_sublist _).length_le.trans
        (symbol_of_line received finite member clock foundSym)
    simp only [datagramWidth]
    omega

end

/-! ### Symbols without fields of their own -/

/-- No field that `replay_sender` looks for stands in the symbol with quotes around it, where those
around the symbol count: neither a `price` nor a `size`, nor a `seq` behind a newline. -/
structure Event.Unkeyed (ev : Event) : Prop where
  price : bytes "price" ∉ ev.symbolStr.splitOn (byte '"')
  size : bytes "size" ∉ ev.symbolStr.splitOn (byte '"')
  seq : byte '\n' ∈ ev.symbolStr → bytes "seq" ∉ ev.symbolStr.splitOn (byte '"')

theorem Event.NamedAsField.unbroken {ev : Event} (named : ev.NamedAsField) :
    byte '\n' ∉ ev.symbolStr := by
  obtain price | size := named
  · rw [price]
    decide
  · rw [size]
    decide

theorem Event.Legible.getlines_recordLineText {ev : Event} (h : ev.Legible) :
    getlines (byte '\n') [] (recordLineText ev) = [recordLineText ev] := by
  have filled : recordLineText ev ≠ [] := by simp [recordLineText, recordPieces, bytes]
  rw [Kit.Getline.getlines_last h.line_unbroken, List.nil_append, if_neg filled]

section

variable {payload : Bytes} {recvTsMs : Int} {source : Source} {ev : Event} {q : ℚ}
  (received : receiveEvent stod payload recvTsMs source = some ev) (finite : ev.price = .finite q)

include received finite

/-- A symbol that is named as a field leaves nothing that is sent. -/
theorem buffersFit_iff_of_named (named : ev.NamedAsField) :
    ev.BuffersFit ↔ recordWidth ev ≤ 423 := by
  have legible : ev.Legible := ⟨⟨payload, recvTsMs, source, received⟩, named.unbroken, q, finite⟩
  rw [buffersFit_iff_of_lines, legible.getlines_recordLineText, List.forall_mem_singleton,
    legible.lineFields_of_named named]
  exact and_iff_left nofun

/-- A symbol without fields of its own leaves the datagram of the event's fields, or nothing where a
newline breaks the record. -/
theorem buffersFit_iff_of_unkeyed (unkeyed : ev.Unkeyed) : ev.BuffersFit ↔ recordWidth ev ≤ 423 ∧
    (byte '\n' ∉ ev.symbolStr → datagramWidth ev.sentFields ≤ 251) := by
  rw [buffersFit_iff_of_lines]
  refine and_congr_right fun _ => ?_
  by_cases broken : byte '\n' ∈ ev.symbolStr
  · refine iff_of_true (fun line member f found => ?_) (absurd broken)
    rw [lineFields_of_broken received finite member broken unkeyed.price (unkeyed.seq broken)]
      at found
    cases found
  · have legible : ev.Legible := ⟨⟨payload, recvTsMs, source, received⟩, broken, q, finite⟩
    have kept := representable_of_received received
    rw [legible.getlines_recordLineText, List.forall_mem_singleton,
      legible.lineFields_of_other unkeyed.price unkeyed.size, stod_printPrice kept]
    simp [broken, Event.sentFields]

end

/-- With one digit more, and the longest other fields, the datagram does not fit. -/
example : (receiveEvent stod (bytes ("-1000000000000000000|-1000000000000000000|" ++
      "ABCDEFGHIJKLMNOPQRSTUVWXYZ12345|-1.1e156|-1000000000000000000")) 1005
      ⟨(127, 0, 0, 1), 40000⟩).map (fun ev => replay (recordText ev)) = some [.overread] := by
  decide +kernel

end EtradePipeline
