import EtradePipeline.Kit.Json.Objects
import EtradePipeline.Receiver.RecordText

/-! Records as JSON.  The symbol is pasted between quotes as it is, so a line is the JSON of its
event exactly when the symbol has no quote and no backslash. -/

namespace EtradePipeline

open Kit.Json (Value Entry Plain Writes decimal magnitudeText writes_magnitude writes_negative)

/-! ### Numbers -/

theorem jsonDigits_digitText (ds : List (Fin 10)) :
    Kit.Json.ofDigits (digitText ds) = digitsValue ds := by
  have digit : ∀ d : Fin 10, (digitByte d - Kit.Json.char '0').toNat = d.val := by decide
  rw [Kit.Json.ofDigits, digitText, List.foldl_map, digitsValue_eq_foldl]
  simp only [digit]

theorem isDigit_digitText (ds : List (Fin 10)) : ∀ c ∈ digitText ds, Kit.Json.isDigit c = true := by
  have digit : ∀ d : Fin 10, Kit.Json.isDigit (digitByte d) = true := by decide
  intro c member
  obtain ⟨d, -, rfl⟩ := List.mem_map.mp member
  exact digit d

theorem isDigit_printNat (n : Nat) : ∀ c ∈ printNat n, Kit.Json.isDigit c = true :=
  printNat_eq n ▸ isDigit_digitText _

theorem printNat_ne_nil (n : Nat) : printNat n ≠ [] := by
  rw [printNat_eq, digitText]
  simpa using natDigits_ne_nil n

theorem printNat_leading (n : Nat) (zero : (printNat n).head? = some (byte '0')) :
    printNat n = [byte '0'] := by
  have digit : ∀ d : Fin 10, digitByte d = byte '0' → d = 0 := by decide
  rw [printNat_eq, digitText, List.head?_map, Option.map_eq_some_iff] at zero
  obtain ⟨d, first, same⟩ := zero
  rw [printNat_eq, natDigits_leading n (digit d same ▸ first)]
  rfl

/-- The printed digits of a number before and behind a point are a JSON number, with a minus before
them or without one. -/
theorem writes_printNat (n : Nat) {part : Bytes} (parts : ∀ c ∈ part, Kit.Json.isDigit c = true) :
    Writes (magnitudeText (printNat n) part) (.num (decimal (printNat n) part)) ∧
      Writes (byte '-' :: magnitudeText (printNat n) part) (.num (-decimal (printNat n) part)) :=
  ⟨writes_magnitude (isDigit_printNat n) (printNat_ne_nil n) (printNat_leading n) parts,
    writes_negative (isDigit_printNat n) (printNat_ne_nil n) (printNat_leading n) parts⟩

theorem cast_of_nonneg {x : Int} (least : 0 ≤ x) : (x : ℚ) = x.natAbs :=
  (congrArg Int.cast (Int.natAbs_of_nonneg least).symm).trans (Int.cast_natCast _)

theorem cast_of_nonpos {x : Int} (most : x ≤ 0) : (x : ℚ) = -x.natAbs := by
  have negated := cast_of_nonneg (Int.neg_nonneg_of_nonpos most)
  rw [Int.natAbs_neg, Int.cast_neg] at negated
  exact neg_eq_iff_eq_neg.mp negated

/-- `%lld` prints a JSON number. -/
theorem writes_printInt (x : Int) : Writes (printInt x) (.num x) := by
  have value : decimal (printNat x.natAbs) [] = x.natAbs := by
    simp [decimal, printNat_eq, jsonDigits_digitText, digitsValue_natDigits]
  have text : magnitudeText (printNat x.natAbs) [] = printNat x.natAbs := List.append_nil _
  have written := @writes_printNat x.natAbs [] (List.forall_mem_nil _)
  rw [text, value] at written
  unfold printInt
  split_ifs with negative
  · rw [cast_of_nonpos negative.le]
    exact written.2
  · rw [cast_of_nonneg (not_lt.mp negative)]
    exact written.1

/-- The digits of hundredths with a point before the last two. -/
theorem decimal_hundredths (h : Nat) :
    decimal (printNat (h / 100)) (printNat (h / 10 % 10) ++ printNat (h % 10)) = (h : ℚ) / 100 := by
  have text : printNat (h / 100) ++ (printNat (h / 10 % 10) ++ printNat (h % 10)) =
      digitText (natDigits (h / 100) ++ decimals h) := by
    simp [printNat_eq, decimals, digitText]
  have length : (printNat (h / 10 % 10) ++ printNat (h % 10)).length = 2 := by
    rw [← length_decimals h, decimals]
    simp [printNat_eq, digitText]
  rw [decimal, text, length, jsonDigits_digitText, digitsValue_hundredths]
  norm_num

/-- `%.2f` prints a JSON number, which is that of the hundredths. -/
theorem writes_printPrice (q : ℚ) :
    Writes (printPrice (.finite q)) (.num (roundHalfEven (q * 100) / 100)) := by
  have positive := @hundredths_nonneg q
  have negative := @hundredths_nonpos q
  simp only [printPrice]
  generalize roundHalfEven (q * 100) = r at positive negative ⊢
  have digits : ∀ c ∈ printNat (r.natAbs / 10 % 10) ++ printNat (r.natAbs % 10),
      Kit.Json.isDigit c = true :=
    List.forall_mem_append.mpr ⟨isDigit_printNat _, isDigit_printNat _⟩
  have written := writes_printNat (r.natAbs / 100) digits
  have text : magnitudeText (printNat (r.natAbs / 100))
      (printNat (r.natAbs / 10 % 10) ++ printNat (r.natAbs % 10)) =
        printNat (r.natAbs / 100) ++ bytes "." ++ printNat (r.natAbs / 10 % 10) ++
          printNat (r.natAbs % 10) := by
    simp [magnitudeText, printNat_ne_nil, bytes, Kit.Json.char]
  rw [decimal_hundredths, text] at written
  split_ifs with below
  · rw [cast_of_nonpos (negative below), neg_div]
    simpa [bytes, byte] using written.2
  · rw [cast_of_nonneg (positive (not_lt.mp below)), List.nil_append]
    exact written.1

/-! ### Records -/

/-- The members of an event's record. -/
def recordMembers (ev : Event) (q : ℚ) : List (List Nat × Value) :=
  [((bytes "seq").map UInt8.toNat, .num ev.seq),
    ((bytes "msg_ts_ms").map UInt8.toNat, .num ev.msgTsMs),
    ((bytes "recv_ts_ms").map UInt8.toNat, .num ev.recvTsMs),
    ((bytes "latency_ms").map UInt8.toNat, .num ev.latencyMs),
    ((bytes "symbol").map UInt8.toNat, .str (ev.symbolStr.map UInt8.toNat)),
    ((bytes "price").map UInt8.toNat, .num (roundHalfEven (q * 100) / 100)),
    ((bytes "size").map UInt8.toNat, .num ev.size),
    ((bytes "src").map UInt8.toNat, .str (ev.src.cstr.map UInt8.toNat))]

/-- The record of an event with a finite price is one line, and it parses to an object with the
members of the event. -/
def Event.RecordValid (ev : Event) (q : ℚ) : Prop :=
  ∃ line ms, (recordLine ev).written = some (line ++ [byte '\n']) ∧ byte '\n' ∉ line ∧
    Kit.Json.parse line = some (.obj ms) ∧
    ∀ key, Kit.Json.get? key ms = Kit.Json.get? key (recordMembers ev q)

/-- A key and a printed number. -/
def numberEntry (key : String) {text : Bytes} {x : ℚ} (plain : ∀ c ∈ bytes key, Plain c)
    (writes : Writes text (.num x)) : Entry := ⟨bytes key, text, .num x, plain, writes⟩

/-- A key and a pasted text. -/
def textEntry (key : String) {text : Bytes} (plain : ∀ c ∈ bytes key, Plain c)
    (pasted : ∀ c ∈ text, Plain c) : Entry :=
  ⟨bytes key, byte '"' :: (text ++ [byte '"']), .str (text.map UInt8.toNat), plain,
    Kit.Json.writes_string pasted⟩

theorem parse_record {ev : Event} {q : ℚ} (price : ev.price = .finite q)
    (symbol : ∀ c ∈ ev.symbolStr, Plain c) (src : ∀ c ∈ ev.src.cstr, Plain c) :
    Kit.Json.parse (recordLineText ev) = some (.obj (recordMembers ev q)) := by
  let entries : List Entry :=
    [numberEntry "seq" (by decide +kernel) (writes_printInt ev.seq),
      numberEntry "msg_ts_ms" (by decide +kernel) (writes_printInt ev.msgTsMs),
      numberEntry "recv_ts_ms" (by decide +kernel) (writes_printInt ev.recvTsMs),
      numberEntry "latency_ms" (by decide +kernel) (writes_printInt ev.latencyMs),
      textEntry "symbol" (by decide +kernel) symbol,
      numberEntry "price" (by decide +kernel) (writes_printPrice q),
      numberEntry "size" (by decide +kernel) (writes_printInt ev.size),
      textEntry "src" (by decide +kernel) src]
  have text : recordLineText ev = Kit.Json.objectText entries := by
    simp [entries, recordLineText, recordPieces, numberPiece, Kit.Json.objectText, Entry.written,
      numberEntry, textEntry, price, Event.symbolStr, bytes, byte, Kit.Json.char]
  rw [text, Kit.Json.parse_objectText]
  rfl

/-- The digits, letters and marks of a record stand for themselves in JSON strings. -/
theorem recordBytes_plain : ∀ c ∈ recordBytes, Plain c := by
  decide +kernel

section

variable {payload : Bytes} {recvTsMs : Int} {source : Source} {ev : Event} {q : ℚ}

/-- A symbol whose record is the JSON of its event has no quote and no backslash. -/
theorem symbol_plain_of_parse (received : receiveEvent stod payload recvTsMs source = some ev)
    (price : ev.price = .finite q) {ms : List (List Nat × Value)}
    (parsed : Kit.Json.parse (recordLineText ev) = some (.obj ms))
    (members : ∀ key, Kit.Json.get? key ms = Kit.Json.get? key (recordMembers ev q)) :
    byte '"' ∉ ev.symbolStr ∧ byte '\\' ∉ ev.symbolStr := by
  have found : Kit.Json.get? ((bytes "symbol").map UInt8.toNat) ms =
      some (.str (ev.symbolStr.map UInt8.toNat)) := (members _).trans rfl
  have has := Kit.Json.hasString_of_parse parsed found
  rw [recordLineText, recordPieces_eq] at has
  refine Kit.Json.plain_of_pasted (fun piece member => ?_) has
  have plain := otherPieces_subset received price piece member
  exact ⟨fun quote => (recordBytes_plain _ (plain quote)).1 rfl,
    fun backslash => (recordBytes_plain _ (plain backslash)).2.1 rfl⟩

theorem recordValid_of_plain (received : receiveEvent stod payload recvTsMs source = some ev)
    (price : ev.price = .finite q) (fits : (recordText ev).length < 512)
    (symbol : ∀ c ∈ ev.symbolStr, Plain c) : ev.RecordValid q := by
  have unprinted : ¬ Plain (byte '\n') := by decide
  refine ⟨recordLineText ev, recordMembers ev q, ?_, ?_, ?_, fun _ => rfl⟩
  · rw [record_written fits, recordText_eq]
  · refine Kit.Search.notMem_intercalate (by decide) fun piece member newline => ?_
    obtain rfl | plain := recordPieces_subset received price piece member
    · exact unprinted (symbol _ newline)
    · exact unprinted (recordBytes_plain _ (plain newline))
  · exact parse_record price symbol fun c member => recordBytes_plain c (src_subset received member)

/-- The record of an accepted datagram with a finite price that fits the buffer, and whose symbol
field is printable ASCII, is valid exactly when what is kept of the symbol has no quote and no
backslash. -/
theorem record_valid_iff {fields : Fields} (parsed : parse stod payload = .ok fields)
    (received : receiveEvent stod payload recvTsMs source = some ev) (price : ev.price = .finite q)
    (fits : (recordText ev).length < 512)
    (printable : ∀ c ∈ fields.symbol, 32 ≤ c ∧ c < 127) :
    ev.RecordValid q ↔ ∀ c ∈ fields.symbol.take 31, c ≠ byte '"' ∧ c ≠ byte '\\' := by
  have built : buildEvent fields recvTsMs source = ev := by
    simpa [receiveEvent, parsed] using received
  have kept : ev.symbolStr = fields.symbol.take 31 := by
    rw [← built]
    refine cstr_setSymbol ?_
    rintro c member rfl
    exact absurd (printable _ member).1 (by decide)
  rw [← kept]
  constructor
  · rintro ⟨line, ms, written, -, object, members⟩
    rw [record_written fits, recordText_eq] at written
    obtain rfl : recordLineText ev = line := List.append_cancel_right (Option.some.inj written)
    obtain ⟨quote, backslash⟩ := symbol_plain_of_parse received price object members
    intro c member
    exact ⟨fun same => quote (same ▸ member), fun same => backslash (same ▸ member)⟩
  · intro plain
    refine recordValid_of_plain received price fits fun c member => ?_
    rw [kept] at member
    exact ⟨(plain c (kept ▸ member)).1, (plain c (kept ▸ member)).2,
      UInt8.not_lt.mpr (printable c (List.mem_of_mem_take member)).1⟩

end

theorem record_valid_iff_on_trade : (plainEvent "AAPL").RecordValid 100 := by
  have parsed : parse stod (bytes "1|1000|AAPL|100|7") =
      .ok ⟨1, 1000, bytes "AAPL", .finite 100, 7⟩ := by decide +kernel
  have received : receiveEvent stod (bytes "1|1000|AAPL|100|7") 1005 ⟨(127, 0, 0, 1), 40000⟩ =
      some (plainEvent "AAPL") := by decide +kernel
  exact (record_valid_iff parsed received rfl (by decide +kernel) (by decide +kernel)).mpr
    (by decide +kernel)

/-- The record of a symbol with a quote is no JSON. -/
theorem symbol_quote_unreadable :
    receiveEvent stod (bytes "1|1000|A\"B|100|7") 1005 ⟨(127, 0, 0, 1), 40000⟩ =
        some (plainEvent "A\"B") ∧
      (recordText (plainEvent "A\"B")).length < 512 ∧
      Kit.Json.parse (recordLineText (plainEvent "A\"B")) = none ∧
      ¬ (plainEvent "A\"B").RecordValid 100 := by
  have fits : (recordText (plainEvent "A\"B")).length < 512 := by decide +kernel
  have unread : Kit.Json.parse (recordLineText (plainEvent "A\"B")) = none :=
    Option.isNone_iff_eq_none.mp (by decide +kernel)
  refine ⟨by decide +kernel, fits, unread, ?_⟩
  rintro ⟨line, ms, written, -, object, -⟩
  rw [record_written fits, recordText_eq] at written
  rw [← List.append_cancel_right (Option.some.inj written), unread] at object
  cases object

end EtradePipeline
