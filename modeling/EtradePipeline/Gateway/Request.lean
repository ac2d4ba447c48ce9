import EtradePipeline.Book.OrderBook
import EtradePipeline.Kit.Getline
import EtradePipeline.Receiver.Numeral
import EtradePipeline.Receiver.Record

/-! A line of the gateway's protocol (`handle_client`): how it is cut into parts, and the request
that the parts make. -/

namespace EtradePipeline

open Kit.Getline (getlines)

/-! ### Lines and parts -/

def isLineEnd (c : UInt8) : Bool := c = byte '\r' || c = byte '\n'

/-- `trim`, which drops carriage returns and newlines at both ends. -/
def trim (s : Bytes) : Bytes := ((s.dropWhile isLineEnd).reverse.dropWhile isLineEnd).reverse

/-- The parts of a line. -/
def parts (line : Bytes) : List Bytes := getlines (byte '|') [] line

/-! ### Responses -/

/-- What the gateway sends, each by a call of `send`. -/
inductive Response where
  | ack (clid : Bytes)
  | rej (clid reason : Bytes)
  | fill (f : Fill)
  | cal (clid : Bytes) (canceled : Int)
  deriving DecidableEq

/-- The line that is sent. -/
def Response.text : Response → Bytes
  | .ack clid => bytes "ACK|" ++ clid ++ bytes "\n"
  | .rej clid reason => bytes "REJ|" ++ clid ++ bytes "|" ++ reason ++ bytes "\n"
  | .fill f => bytes "FILL|" ++ f.clid ++ bytes "|" ++ printInt f.size ++ bytes "|" ++
      printPrice f.price ++ bytes "\n"
  | .cal clid canceled => bytes "CAL|" ++ clid ++ bytes "|" ++ printInt canceled ++ bytes "\n"

namespace Response

def isAck : Response → Bool
  | .ack _ => true
  | _ => false

def isRej : Response → Bool
  | .rej _ _ => true
  | _ => false

def isFill : Response → Bool
  | .fill _ => true
  | _ => false

end Response

/-! ### Requests -/

/-- What a line asks for.  A line may be refused before anything is called, and then `counted` tells
whether the refusal counts as a rejected order. -/
inductive Request where
  | order (ord : Order)
  | cancel (clid : Bytes)
  | refuse (clid reason : Bytes) (counted : Bool)
  deriving DecidableEq

/-- An `ORDER` line with the parts that it needs. -/
def orderRequest (maxSize : Int64) (clid side sym price size : Bytes) : Request :=
  let price := (stod price).getD .nan
  let size := (stoll size).getD llongMin
  if size ≤ 0 ∨ size = llongMin then .refuse clid (bytes "bad_size") true
  else if maxSize.toInt < size then .refuse clid (bytes "size_exceeds_limit") true
  else .order ⟨clid, if side = bytes "BUY" then .buy else .sell, sym, price, size⟩

/-- The request of a line's parts, the first of which is the command. -/
def request (maxSize : Int64) (command : Bytes) (args : List Bytes) : Request :=
  if command = bytes "ORDER" then
    match args with
    | clid :: side :: sym :: price :: size :: _ => orderRequest maxSize clid side sym price size
    | _ => .refuse [] (bytes "bad_format") true
  else if command = bytes "CANCEL" then
    match args with
    | clid :: _ => .cancel clid
    | [] => .refuse [] (bytes "bad_format") false
  else .refuse [] (bytes "unknown_cmd") false

/-- The request of a line that is not empty. -/
def requestOf (maxSize : Int64) (line : Bytes) : Option Request :=
  match parts line with
  | [] => none
  | command :: args => some (request maxSize command args)

/-- A line whose command is `ORDER`. -/
def IsOrderLine (line : Bytes) : Prop := (parts line).head? = some (bytes "ORDER")

instance (line : Bytes) : Decidable (IsOrderLine line) := inferInstanceAs (Decidable (_ = _))

theorem requestOf_eq_some {maxSize : Int64} {line : Bytes} {req : Request} :
    requestOf maxSize line = some req ↔
      ∃ command args, parts line = command :: args ∧ request maxSize command args = req := by
  unfold requestOf
  cases parts line with
  | nil => simp
  | cons command args => simp

theorem isOrderLine_of_order {maxSize : Int64} {line : Bytes} {ord : Order}
    (asked : requestOf maxSize line = some (.order ord)) : IsOrderLine line := by
  obtain ⟨command, args, cut, asked⟩ := requestOf_eq_some.mp asked
  have named : command = bytes "ORDER" := by
    by_contra other
    simp only [request, if_neg other] at asked
    split_ifs at asked
    split at asked <;> cases asked
  rw [IsOrderLine, cut, List.head?_cons, named]

theorem orderRequest_cases (maxSize : Int64) (clid side sym price size : Bytes) :
    (∃ reason, orderRequest maxSize clid side sym price size = .refuse clid reason true) ∨
    ∃ n, stoll size = some n ∧ 0 < n ∧ n ≤ maxSize.toInt ∧
      orderRequest maxSize clid side sym price size =
        .order ⟨clid, if side = bytes "BUY" then .buy else .sell, sym,
          (stod price).getD .nan, n⟩ := by
  by_cases bad : (stoll size).getD llongMin ≤ 0 ∨ (stoll size).getD llongMin = llongMin
  · exact .inl ⟨_, if_pos bad⟩
  by_cases large : maxSize.toInt < (stoll size).getD llongMin
  · exact .inl ⟨_, (if_neg bad).trans (if_pos large)⟩
  · right
    cases converted : stoll size with
    | none => simp [converted, llongMin] at bad
    | some n =>
      simp only [converted, Option.getD_some, not_or, not_le, not_lt] at bad large
      refine ⟨n, rfl, bad.1, large, ?_⟩
      simp [orderRequest, converted, bad, not_le.mpr bad.1, not_lt.mpr large]

/-- An `ORDER` line is refused and counted as rejected, or it asks for an order of a size that the
gateway allows. -/
theorem requestOf_cases {maxSize : Int64} {line : Bytes} (isOrder : IsOrderLine line) :
    (∃ clid reason, requestOf maxSize line = some (.refuse clid reason true)) ∨
    ∃ ord, requestOf maxSize line = some (.order ord) ∧ 0 < ord.size ∧
      ord.size ≤ maxSize.toInt := by
  obtain ⟨args, cut⟩ := List.head?_eq_some_iff.mp isOrder
  simp only [requestOf, cut, request, if_pos]
  split
  · rename_i clid side sym price size _
    rcases orderRequest_cases maxSize clid side sym price size with
      ⟨reason, refused⟩ | ⟨n, -, positive, allowed, asked⟩
    · exact .inl ⟨clid, reason, by rw [refused]⟩
    · exact .inr ⟨_, by rw [asked], positive, allowed⟩
  · exact .inl ⟨_, _, rfl⟩

end EtradePipeline
