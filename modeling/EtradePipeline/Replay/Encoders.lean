import EtradePipeline.Receiver.RecordText
import EtradePipeline.Replay.Sender

/-! What the senders of the repository put into a datagram, and what the receiver reads out of it.
A text of Python is given by its UTF-8 bytes. -/

namespace EtradePipeline

/-- `f"{seq}|{ts}|{symbol}|{price:.2f}|{size}"`. -/
def quoteText (q : Fields) : Bytes :=
  [byte '|'].intercalate [printInt q.seq, printInt q.msgTs, q.symbol, printPrice q.price,
    printInt q.size]

/-- `send_udp.make_msg`, which reads the time. -/
def makeMsg (tsMs seq : Int) (symbol : Bytes) (price : Double) (size : Int) : Bytes :=
  quoteText ⟨seq, tsMs, symbol, price, size⟩

/-- The payload in the loop of `benchmark_sender.send_messages`. -/
def sendMessages (seq msgTs : Int) (symbol : Bytes) (price : Double) (size : Int) : Bytes :=
  quoteText ⟨seq, msgTs, symbol, price, size⟩

/-- The message of `test_replay.send_udp_msg`. -/
def sendUdpMsg (seq msgTsMs : Int) (symbol : Bytes) (price : Double) (size : Int) : Bytes :=
  quoteText ⟨seq, msgTsMs, symbol, price, size⟩ ++ bytes "\n"

/-- What `replay_sender` sends for the fields of a line, or `none` where that reaches beyond its
buffer. -/
def replayDatagram (seq msgTs : Int) (sym : Bytes) (price : Double) (size : Int) : Option Bytes :=
  let text := datagramText seq msgTs sym price size
  if text.length < 256 then some text else none

inductive Encoder where
  | makeMsg
  | sendMessages
  | sendUdpMsg
  | replaySender
  deriving DecidableEq

/-- The datagram of five values. -/
def Encoder.datagram (q : Fields) : Encoder → Option Bytes
  | makeMsg => some (EtradePipeline.makeMsg q.msgTs q.seq q.symbol q.price q.size)
  | sendMessages => some (EtradePipeline.sendMessages q.seq q.msgTs q.symbol q.price q.size)
  | sendUdpMsg => some (EtradePipeline.sendUdpMsg q.seq q.msgTs q.symbol q.price q.size)
  | replaySender => replayDatagram q.seq q.msgTs q.symbol q.price q.size

/-- Integers of at most 18 digits, a symbol of 1 to 31 bytes without a bar or NUL, and a price that
its two decimals convert to. -/
structure Fields.Ordinary (toDouble : Bytes → Option Double) (q : Fields) : Prop where
  seq : |q.seq| < 10 ^ 18
  msgTs : |q.msgTs| < 10 ^ 18
  size : |q.size| < 10 ^ 18
  symbol_nonempty : q.symbol ≠ []
  symbol_short : q.symbol.length ≤ 31
  symbol_free : ∀ c ∈ q.symbol, c ≠ byte '|' ∧ c ≠ 0
  converts : toDouble (printPrice q.price) = some q.price

/-- The receiver accepts the datagram, and the event has the five values. -/
def Decodes (toDouble : Bytes → Option Double) (q : Fields) (datagram : Option Bytes) : Prop :=
  ∃ payload, datagram = some payload ∧ ∀ (recvTsMs : Int) (source : Source),
    ∃ ev, receiveEvent toDouble payload recvTsMs source = some ev ∧
      ev.seq = q.seq ∧ ev.msgTsMs = q.msgTs ∧ ev.symbolStr = q.symbol ∧ ev.price = q.price ∧
        ev.size = q.size

variable {toDouble : Bytes → Option Double} {q : Fields}

/-- The replay of a line sends the datagram of the fields that are found in it. -/
theorem replayLine_of_message {line : Bytes} (filled : line ≠ [])
    (found : messageOf line = some (datagramText q.seq q.msgTs q.symbol q.price q.size)) :
    replayLine line = ((Encoder.datagram q .replaySender).map Replayed.sent).getD .overread := by
  simp only [replayLine, if_neg filled, found, Encoder.datagram, replayDatagram]
  split_ifs <;> rfl

namespace Fields.Ordinary

theorem splitOn_quoteText (h : q.Ordinary toDouble) (ending : Bytes) (plain : byte '|' ∉ ending) :
    (quoteText q ++ ending).splitOn (byte '|') =
      [printInt q.seq, printInt q.msgTs, q.symbol, printPrice q.price,
        printInt q.size ++ ending] := by
  have number : ∀ x, byte '|' ∉ printInt x := notMem_printInt (by decide)
  have last : byte '|' ∉ printInt q.size ++ ending := by
    rw [List.mem_append, not_or]
    exact ⟨number q.size, plain⟩
  have text : quoteText q ++ ending = [byte '|'].intercalate
      [printInt q.seq, printInt q.msgTs, q.symbol, printPrice q.price,
        printInt q.size ++ ending] := by
    simp [quoteText, List.intercalate_cons_cons]
  rw [text]
  refine List.splitOn_intercalate _ ?_ (List.cons_ne_nil _ _)
  simp only [List.forall_mem_cons]
  exact ⟨number _, number _, fun member => (h.symbol_free _ member).1 rfl,
    notMem_printPrice (by decide) _, last, List.forall_mem_nil _⟩

theorem toLl_of_short {x : Int} (short : |x| < 10 ^ 18) : toLl (printInt x) = some x := by
  obtain ⟨least, below⟩ := abs_lt.mp short
  exact toLl_printInt (by omega) (by omega)

/-- The receiver reads the five values out of the text. -/
theorem decodes_quoteText (h : q.Ordinary toDouble) : Decodes toDouble q (some (quoteText q)) := by
  have split := h.splitOn_quoteText [] List.not_mem_nil
  rw [List.append_nil, List.append_nil] at split
  have parsed : parse toDouble (quoteText q) = .ok q := parse_eq_ok.mpr ⟨_, _, _, _, split,
    toLl_of_short h.seq, toLl_of_short h.msgTs, h.converts, toLl_of_short h.size⟩
  have symbol : (setSymbol q.symbol).cstr = q.symbol := by
    rw [cstr_setSymbol fun c member => (h.symbol_free c member).2,
      List.take_of_length_le h.symbol_short]
  exact ⟨_, rfl, fun recvTsMs source =>
    ⟨_, receiveEvent_eq_some.mpr ⟨q, parsed, rfl⟩, rfl, rfl, symbol, rfl, rfl⟩⟩

/-- A newline behind the size is no digit. -/
theorem not_decodes_newline (h : q.Ordinary toDouble) :
    ¬ Decodes toDouble q (some (quoteText q ++ bytes "\n")) := by
  rintro ⟨payload, same, reads⟩
  cases same
  obtain ⟨ev, received, -⟩ := reads 0 ⟨(0, 0, 0, 0), 0⟩
  obtain ⟨fields, parsed, -⟩ := receiveEvent_eq_some.mp received
  obtain ⟨seq, msgTs, price, size, split, -, -, -, converted⟩ := parse_eq_ok.mp parsed
  rw [h.splitOn_quoteText _ (by decide)] at split
  simp only [List.cons.injEq, and_true] at split
  obtain ⟨-, -, -, -, rfl⟩ := split
  obtain ⟨i, -, text⟩ := exists_integer_of_toLl converted
  have newline : byte '\n' ∈ i.text := by
    rw [text]
    exact List.mem_append_right _ (by decide)
  exact absurd (i.text_subset newline) (by decide)

end Fields.Ordinary

theorem datagramText_eq (h : q.Ordinary toDouble) :
    datagramText q.seq q.msgTs q.symbol q.price q.size = quoteText q := by
  have noNul : q.symbol.takeWhile (· ≠ 0) = q.symbol :=
    List.takeWhile_eq_self_iff.mpr fun c member => decide_eq_true (h.symbol_free c member).2
  rw [datagramText, noNul]
  rfl

/-- The receiver decodes what a sender encodes, exactly when the sender is not the one that ends its
message with a newline and, where it is the replay sender, the text fits its buffer. -/
theorem encoders_decoded_iff (toDouble : Bytes → Option Double) (encoder : Encoder) (q : Fields)
    (ordinary : q.Ordinary toDouble) : Decodes toDouble q (encoder.datagram q) ↔
      encoder ≠ .sendUdpMsg ∧ (encoder = .replaySender → (quoteText q).length < 256) := by
  have decoded := ordinary.decodes_quoteText
  cases encoder with
  | makeMsg | sendMessages => exact iff_of_true decoded (by simp)
  | sendUdpMsg => exact iff_of_false ordinary.not_decodes_newline fun h => h.1 rfl
  | replaySender =>
    simp only [Encoder.datagram, replayDatagram, datagramText_eq ordinary]
    split_ifs with fits
    · exact iff_of_true decoded ⟨by decide, fun _ => fits⟩
    · refine iff_of_false ?_ fun h => fits (by simpa using h)
      rintro ⟨payload, none, -⟩
      cases none

/-- The first message that the integration test sends. -/
def testQuote : Fields := ⟨1, 1000, bytes "AAPL", .finite 100, 100⟩

theorem testQuote_ordinary : testQuote.Ordinary stod where
  seq := by decide
  msgTs := by decide
  size := by decide
  symbol_nonempty := by decide
  symbol_short := by decide
  symbol_free := by decide +kernel
  converts := by decide +kernel

theorem encoders_decoded_iff_for_make_msg :
    Decodes stod testQuote (Encoder.makeMsg.datagram testQuote) :=
  (encoders_decoded_iff stod .makeMsg testQuote testQuote_ordinary).mpr (by decide)

/-- As `send_udp_msg` sends it, the receiver refuses it for its size. -/
theorem test_message_refused :
    testQuote.Ordinary stod ∧
    (Encoder.sendUdpMsg.datagram testQuote).map (parse stod) =
      some (.error (.invalidSize (bytes "100\n"))) ∧
    ¬ Decodes stod testQuote (Encoder.sendUdpMsg.datagram testQuote) :=
  ⟨testQuote_ordinary, by decide +kernel, testQuote_ordinary.not_decodes_newline⟩

end EtradePipeline
