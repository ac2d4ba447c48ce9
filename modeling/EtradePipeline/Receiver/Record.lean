import EtradePipeline.Book.Event
import EtradePipeline.Receiver.Parser

/-! The event that the receiver builds of a datagram, and the record line that it appends to
`events.jsonl` for it. -/

namespace EtradePipeline

/-! ### Formats -/

/-- `%u`. -/
def printNat (n : Nat) : Bytes := (Nat.toDigits 10 n).map byte

/-- `%lld`. -/
def printInt (x : Int) : Bytes :=
  if x < 0 then byte '-' :: printNat x.natAbs else printNat x.natAbs

/-- `%.2f`.  The value is rounded to hundredths, half to even. -/
def printPrice : Double → Bytes
  | .nan => bytes "nan"
  | .posInf => bytes "inf"
  | .negInf => bytes "-inf"
  | .finite q =>
    let hundredths := (roundHalfEven (q * 100)).natAbs
    let sign := if q < 0 then bytes "-" else []
    sign ++ printNat (hundredths / 100) ++ bytes "." ++ printNat (hundredths / 10 % 10) ++
      printNat (hundredths % 10)

/-- What `snprintf` leaves in a buffer of 512 bytes, and the length it returns, which is that of the
whole text. -/
structure Line where
  tmpBuf : CharBuf 512
  wrote : Nat
  deriving DecidableEq

/-- `snprintf(tmp_buf, sizeof(tmp_buf), ..)` of a text. -/
def Line.print (text : Bytes) : Line := ⟨CharBuf.copy 512 (by decide) text, text.length⟩

/-- What is appended to the record file for a line, or `none` where that reaches beyond the text in
the buffer. -/
def Line.written (l : Line) : Option Bytes :=
  if l.wrote ≤ l.tmpBuf.copied.length then some (l.tmpBuf.copied.take l.wrote) else none

/-! ### Sources -/

/-- The IPv4 address and port that a datagram came from. -/
structure Source where
  addr : UInt8 × UInt8 × UInt8 × UInt8
  port : UInt16
  deriving DecidableEq

/-- `inet_ntop`. -/
def Source.srcIp (s : Source) : Bytes :=
  printNat s.addr.1.toNat ++ bytes "." ++ printNat s.addr.2.1.toNat ++ bytes "." ++
    printNat s.addr.2.2.1.toNat ++ bytes "." ++ printNat s.addr.2.2.2.toNat

/-- `src_merged`: the address and the port. -/
def Source.srcMerged (s : Source) : Bytes := s.srcIp ++ bytes ":" ++ printNat s.port.toNat

/-! ### Events -/

/-- The event of the fields that a datagram holds, received at `recvTsMs`. -/
def buildEvent (fields : Fields) (recvTsMs : Int) (source : Source) : Event :=
  { seq := fields.seq
    msgTsMs := fields.msgTs
    recvTsMs := recvTsMs
    latencyMs := wrap64 (recvTsMs - fields.msgTs)
    symbol := setSymbol fields.symbol
    price := fields.price
    size := fields.size
    src := setSrc source.srcMerged }

/-- The event of a datagram's bytes, when the parser accepts them. -/
def receiveEvent (toDouble : Bytes → Option Double) (sv : Bytes) (recvTsMs : Int)
    (source : Source) : Option Event :=
  match parse toDouble sv with
  | .ok fields => some (buildEvent fields recvTsMs source)
  | .error _ => none

/-- The text of an event's record. -/
def recordText (ev : Event) : Bytes :=
  bytes "\x7b\"seq\":" ++ printInt ev.seq ++ bytes ",\"msg_ts_ms\":" ++ printInt ev.msgTsMs ++
    bytes ",\"recv_ts_ms\":" ++ printInt ev.recvTsMs ++ bytes ",\"latency_ms\":" ++
    printInt ev.latencyMs ++ bytes ",\"symbol\":\"" ++ ev.symbol.cstr ++ bytes "\",\"price\":" ++
    printPrice ev.price ++ bytes ",\"size\":" ++ printInt ev.size ++ bytes ",\"src\":\"" ++
    ev.src.cstr ++ bytes "\"\x7d\n"

/-- The line that is written for an event. -/
def recordLine (ev : Event) : Line := Line.print (recordText ev)

end EtradePipeline
