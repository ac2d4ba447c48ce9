import EtradePipeline.Kit.Getline
import EtradePipeline.Kit.Search
import EtradePipeline.Receiver.Record

/-! `replay_sender`: the loop over the lines of a record file that makes a datagram of each again.
-/

namespace EtradePipeline

open Kit.Getline (getlines)
open Kit.Search (indexOf behind)

/-- The record file of events. -/
def recordFile : List Event → Option Bytes
  | [] => some []
  | ev :: evs => do
    let line ← (recordLine ev).written
    let file ← recordFile evs
    return line ++ file

/-! ### Fields -/

/-- White space and colons, which are skipped behind a key. -/
def isGap (c : UInt8) : Bool := c = byte ' ' || c = byte '\t' || c = byte ':'

def isDecimalDigit (c : UInt8) : Bool := byte '0' ≤ c && c ≤ byte '9'

/-- The digit loop of `extract_lonlong_field`, with `v` and `got` so far. -/
def lonlongLoop : Int → Bool → Bytes → Option Int
  | v, got, [] => if got then some v else none
  | v, got, c :: cs =>
    if isDecimalDigit c then lonlongLoop (wrap64 (wrap64 (v * 10) + (c - byte '0').toNat)) true cs
    else if got then some v else none

/-- `extract_lonlong_field`. -/
def extractLonlongField (s key : Bytes) : Option Int :=
  (behind key s).bind fun rest =>
    let rest := rest.dropWhile isGap
    let neg : Bool := rest.head? = some (byte '-')
    (lonlongLoop 0 false (if neg then rest.drop 1 else rest)).map fun v =>
      if neg then wrap64 (-v) else v

def isNumberChar (c : UInt8) : Bool :=
  isDecimalDigit c || c = byte '.' || c = byte 'e' || c = byte 'E' || c = byte '+' || c = byte '-'

/-- `extract_double_field`. -/
def extractDoubleField (s key : Bytes) : Option Double :=
  (behind key s).bind fun rest =>
    let tmp := (rest.dropWhile isGap).takeWhile isNumberChar
    if tmp = [] then none else stod tmp

/-- `extract_string_field`. -/
def extractStringField (s key : Bytes) : Option Bytes :=
  (behind key s).bind fun rest =>
    (behind (bytes "\"") rest).bind fun text => (indexOf (bytes "\"") text).map fun r => text.take r

/-! ### Datagrams -/

/-- The text of the message: `"%lld|%lld|%s|%.2f|%lld"`. -/
def datagramText (seq msgTs : Int) (sym : Bytes) (price : Double) (size : Int) : Bytes :=
  [byte '|'].intercalate
    [printInt seq, printInt msgTs, sym.takeWhile (· ≠ 0), printPrice price, printInt size]

/-- What the loop does with a line: it skips it, sends a datagram, or sends what is beyond its
buffer of 256 bytes. -/
inductive Replayed where
  | skipped
  | sent (datagram : Bytes)
  | overread
  deriving DecidableEq

/-- The fields that the loop finds in a line, when it finds all five. -/
def lineFields (line : Bytes) : Option Fields := do
  let seq ← extractLonlongField line (bytes "\"seq\"")
  let msgTs ← extractLonlongField line (bytes "\"msg_ts_ms\"")
  let price ← extractDoubleField line (bytes "\"price\"")
  let size ← extractLonlongField line (bytes "\"size\"")
  let sym ← extractStringField line (bytes "\"symbol\"")
  return ⟨seq, msgTs, sym, price, size⟩

/-- The message of a line, when all five fields are found. -/
def messageOf (line : Bytes) : Option Bytes :=
  (lineFields line).map fun f => datagramText f.seq f.msgTs f.symbol f.price f.size

def replayLine (line : Bytes) : Replayed :=
  if line = [] then .skipped
  else
    match messageOf line with
    | none => .skipped
    | some text => if text.length < 256 then .sent text else .overread

/-- The loop over the lines of a file. -/
def replay (file : Bytes) : List Replayed := (getlines (byte '\n') [] file).map replayLine

/-- What the receiver reads of what is sent. -/
def Replayed.received : Replayed → List Fields
  | .sent datagram => (parse stod datagram).toOption.toList
  | _ => []

/-- The fields that the receiver reads when a file is replayed to it. -/
def replayedFields (file : Bytes) : List Fields := (replay file).flatMap Replayed.received

end EtradePipeline
