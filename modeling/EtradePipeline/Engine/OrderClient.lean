import EtradePipeline.Engine.Responses
import EtradePipeline.Gateway.Grammar
import EtradePipeline.Kit.FlatMap
import EtradePipeline.Receiver.ReadBack
import EtradePipeline.Service.Metrics

/-! The session of `order_client.py`: its `ORDER` lines on one connection to the engine, and what it
prints of what it receives.  The engine may do anything else in between.  The lines are asked and
answered in their order, each response is known by its id, and what is printed is the stream of
responses. -/

namespace EtradePipeline

open Kit.FlatMap (filter_flatten_named)
open Kit.Framing (cut)
open Kit.Getline (getlines_intercalate)
open Kit.TornLog
  (framed cut_of_prefix framed_append count_framed framed_of_ended infix_of_framed map_framed)
open Kit.Transition

/-! ### What is sent -/

/-- A Python `float`. -/
structure PyFloat where
  double : Double
  representable : double.Representable

/-- The arguments of the client, with the symbol as it is encoded. -/
structure ClientArgs where
  symbol : Bytes
  side : Option Side
  price : PyFloat
  size : Int

/-- What `random` gives for an order: a side, and a price near 100. -/
structure Draw where
  side : Side
  price : PyFloat

/-- `clid`. -/
def clientId (i : Nat) : Bytes := bytes "cli" ++ printNat (i + 1)

namespace ClientArgs

variable (args : ClientArgs)

def orderSide (d : Draw) : Side := args.side.getD d.side

def orderPrice (d : Draw) : PyFloat := if args.price.double = .finite 0 then d.price else args.price

/-- `line`, without its newline. -/
def line (i : Nat) (d : Draw) : Bytes :=
  bytes "ORDER|" ++ clientId i ++ bytes "|" ++ (args.orderSide d).text ++ bytes "|" ++
    args.symbol ++ bytes "|" ++
    printPrice (args.orderPrice d).double ++ bytes "|" ++ printInt args.size

/-- The lines of the session, one for each draw. -/
def session (draws : List Draw) : List Bytes := draws.mapIdx args.line

/-- What the session sends. -/
def stream (draws : List Draw) : Bytes := framed (byte '\n') (args.session draws)

/-- The order that the line asks for. -/
def order (i : Nat) (d : Draw) : Order :=
  ⟨clientId i, args.orderSide d, args.symbol, (args.orderPrice d).double.readBack, args.size⟩

/-- The reason for which the gateway refuses every line of the session, if it does. -/
def refusal (maxSize : Int64) : Option Bytes :=
  if args.size ≤ 0 ∨ 2 ^ 63 ≤ args.size then some (bytes "bad_size")
  else if maxSize.toInt < args.size then some (bytes "size_exceeds_limit")
  else none

end ClientArgs

/-! ### What is printed -/

/-- A character at which `str.splitlines` splits. -/
def isLineBoundary (c : Nat) : Bool :=
  (10 ≤ c && c ≤ 13) || (28 ≤ c && c ≤ 30) || c ∈ [0x85, 0x2028, 0x2029]

/-- `str.splitlines`, with the part of the line that is behind. -/
def splitlinesFrom (line : PyStr) : PyStr → List PyStr
  | [] => if line = [] then [] else [line]
  | 13 :: 10 :: cs => line :: splitlinesFrom [] cs
  | c :: cs => if isLineBoundary c then line :: splitlinesFrom [] cs
    else splitlinesFrom (line ++ [c]) cs

/-- The lines that the client prints for the chunks that its calls of `recv` return, or `none` when
one does not decode. -/
def printedLines (decode : Bytes → Option PyStr) (chunks : List Bytes) : Option (List PyStr) :=
  (chunks.mapM decode).map fun texts => texts.flatMap (splitlinesFrom [])

/-! ### The lines -/

theorem printNat_injective : Function.Injective printNat := by
  intro m n same
  rw [printNat_eq, printNat_eq] at same
  have digit : Function.Injective digitByte := by
    intro a b
    revert a b
    decide
  have digits := List.map_injective_iff.mpr digit same
  rw [← digitsValue_natDigits m, digits, digitsValue_natDigits]

theorem clientId_injective : Function.Injective clientId := by
  intro i j same
  have numbers := printNat_injective (List.append_cancel_left same)
  omega

theorem printNat_subset (n : Nat) : printNat n ⊆ numeralBytes := printNat_eq n ▸ digitText_subset _

/-- A text of visible characters and blanks. -/
def Printable (s : Bytes) : Prop := ∀ c ∈ s, 32 ≤ c ∧ c < 127

/-- The bytes of numbers, prices and ids. -/
def shownBytes : Bytes := numeralBytes ++ bytes "naif" ++ bytes "cli"

theorem shownBytes_fine : ∀ c ∈ shownBytes,
    32 ≤ c ∧ c < 127 ∧ c ≠ byte '|' ∧ c ≠ byte '\n' ∧ isLineEnd c = false := by
  decide +kernel

theorem fine_of_shown {s : Bytes} (shown : s ⊆ shownBytes) : Unmarked s ∧ Printable s := by
  refine ⟨⟨fun bar => ?_, fun newline => ?_⟩, fun c member => ?_⟩
  · exact (shownBytes_fine _ (shown bar)).2.2.1 rfl
  · exact (shownBytes_fine _ (shown newline)).2.2.2.1 rfl
  · exact ⟨(shownBytes_fine c (shown member)).1, (shownBytes_fine c (shown member)).2.1⟩

theorem numeral_shown : numeralBytes ⊆ shownBytes :=
  fun _ digit => List.mem_append_left _ (List.mem_append_left _ digit)

theorem clientId_fine (i : Nat) : Unmarked (clientId i) ∧ Printable (clientId i) := by
  apply fine_of_shown
  apply List.append_subset.mpr
  exact ⟨List.subset_append_right _ _, List.Subset.trans (printNat_subset _) numeral_shown⟩

theorem printInt_fine (x : Int) : Unmarked (printInt x) ∧ Printable (printInt x) :=
  fine_of_shown (List.Subset.trans (printInt_subset x) numeral_shown)

theorem printPrice_fine (price : Double) :
    Unmarked (printPrice price) ∧ Printable (printPrice price) := by
  apply fine_of_shown
  intro c member
  by_contra odd
  exact notMem_printPrice (fun inside => odd (List.mem_append_left _ inside)) price member

/-- The words of the responses and the reasons of the gateway and its manager. -/
theorem words_fine :
    ∀ word ∈ [bytes "ACK", bytes "REJ", bytes "FILL", bytes "bad_size", bytes "bas_size",
    bytes "size_exceeds_limit", bytes "max_open_orders_exceeded", bytes "no_orderbook"],
    Unmarked word ∧ Printable word := by
  unfold Printable
  decide +kernel

theorem trim_framed {line : Bytes} (first : ∀ c ∈ line.head?, isLineEnd c = false)
    (last : ∀ c ∈ line.getLast?, isLineEnd c = false) : trim (line ++ [byte '\n']) = line := by
  have newline : isLineEnd (byte '\n') = true := by decide
  have front : (line ++ [byte '\n']).dropWhile isLineEnd = if line = [] then []
      else line ++ [byte '\n'] := by
    cases line with
    | nil => simp [newline]
    | cons c cs => simp [first c rfl]
  have back : line.reverse.dropWhile isLineEnd = line.reverse := by
    cases reversed : line.reverse with
    | nil => rfl
    | cons c cs =>
      have ends := last c (by rw [← List.head?_reverse, reversed]; rfl)
      rw [List.dropWhile_cons_of_neg (by simp [ends])]
  rw [trim, front]
  split_ifs with empty
  · simp [empty]
  · rw [List.reverse_append, List.reverse_singleton, List.singleton_append,
      List.dropWhile_cons_of_pos newline, back, List.reverse_reverse]

namespace ClientArgs

variable {args : ClientArgs} {i : Nat} {d : Draw} {draws : List Draw} {maxSize : Int64}

def fields (args : ClientArgs) (i : Nat) (d : Draw) : List Bytes :=
  [bytes "ORDER", clientId i, (args.orderSide d).text, args.symbol,
    printPrice (args.orderPrice d).double, printInt args.size]

theorem line_eq : args.line i d = [byte '|'].intercalate (args.fields i d) := by
  simp [line, fields, bytes, byte, List.intercalate_cons_cons]

theorem printInt_ne_nil (x : Int) : printInt x ≠ [] := by
  rw [← printedInt_text]
  simp [Integer.text, digitText, (printedInt x).nonempty]

theorem fields_unmarked (plain : Unmarked args.symbol) : ∀ f ∈ args.fields i d, Unmarked f := by
  have side : Unmarked (args.orderSide d).text := by cases args.orderSide d <;> decide
  simp only [fields, List.forall_mem_cons]
  exact ⟨by decide, (clientId_fine i).1, side, plain, unmarked_printPrice _, unmarked_printInt _,
    List.forall_mem_nil _⟩

theorem parts_line (plain : Unmarked args.symbol) : parts (args.line i d) = args.fields i d := by
  rw [line_eq]
  refine getlines_intercalate (fun f member => (fields_unmarked plain f member).1) ?_
  simpa [fields] using printInt_ne_nil args.size

theorem stoll_printInt (x : Int) :
    stoll (printInt x) = if llongMin ≤ x ∧ x < 2 ^ 63 then some x else none := by
  rw [← printedInt_text, stoll_text, printedInt_value]

/-- What the gateway makes of a line of the session. -/
theorem requestOf_line (plain : Unmarked args.symbol) : requestOf maxSize (args.line i d) = some (
    match args.refusal maxSize with
    | some reason => .refuse (clientId i) reason true
    | none => .order (args.order i d)) := by
  have named : (if (args.orderSide d).text = bytes "BUY" then Side.buy else .sell) =
      args.orderSide d := by
    cases args.orderSide d <;> decide
  have bound := maxSize.toInt_lt
  simp only [requestOf, parts_line plain, fields, request, if_true, orderRequest, stoll_printInt,
    stod_printPrice (args.orderPrice d).representable, Option.getD_some, named, refusal, order]
  by_cases bad : args.size ≤ 0 ∨ 2 ^ 63 ≤ args.size
  · have value :
        (if llongMin ≤ args.size ∧ args.size < 2 ^ 63 then some args.size else none).getD llongMin ≤
          0 := by
      split_ifs <;> simp only [Option.getD_some, Option.getD_none, llongMin] <;> omega
    rw [if_pos (.inl value), if_pos bad]
  · have converts : llongMin ≤ args.size ∧ args.size < 2 ^ 63 := by
      unfold llongMin
      omega
    have good : ¬ (args.size ≤ 0 ∨ args.size = llongMin) := by
      unfold llongMin
      omega
    rw [if_pos converts, Option.getD_some, if_neg good, if_neg bad]
    split_ifs <;> rfl

/-! ### The stream -/

theorem line_ends : (∀ c ∈ (args.line i d).head?, isLineEnd c = false) ∧
    ∀ c ∈ (args.line i d).getLast?, isLineEnd c = false := by
  constructor <;> intro c ends
  · have first : c = 79 := by simpa [line, bytes, eq_comm] using ends
    rw [first]
    decide
  · rw [line, List.getLast?_append_of_ne_nil _ (printInt_ne_nil _)] at ends
    have shown := numeral_shown (printInt_subset _ (List.mem_of_getLast? ends))
    exact (shownBytes_fine c shown).2.2.2.2

theorem newline_notMem_session (plain : Unmarked args.symbol) :
    ∀ line ∈ args.session draws, byte '\n' ∉ line := by
  intro line member
  obtain ⟨i, inside, rfl⟩ := List.mem_mapIdx.mp member
  rw [line_eq]
  exact Kit.Search.notMem_intercalate (by decide) fun f listed => (fields_unmarked plain f listed).2

/-- The lines of a part of the stream are the first lines of the session. -/
theorem lines_of_part (plain : Unmarked args.symbol) {s : Bytes} (part : s <+: args.stream draws) :
    lines s = (args.session draws).take (s.count (byte '\n')) := by
  have trimmed : ∀ line ∈ args.session draws, trim (line ++ [byte '\n']) = line ∧ line ≠ [] := by
    intro line member
    obtain ⟨i, inside, rfl⟩ := List.mem_mapIdx.mp member
    exact ⟨trim_framed line_ends.1 line_ends.2, by simp [line, bytes]⟩
  have firsts : ∀ line ∈ (args.session draws).take (s.count (byte '\n')),
    trim (line ++ [byte '\n']) = line ∧
      line ≠ [] := fun line member => trimmed line (List.mem_of_mem_take member)
  have kept : ((args.session draws).take (s.count (byte '\n'))).map (trim ∘ (· ++ [byte '\n'])) =
      (args.session draws).take (s.count (byte '\n')) :=
    (List.map_congr_left fun line member => (firsts line member).1).trans (List.map_id _)
  rw [lines, cut_of_prefix part (newline_notMem_session plain), List.map_map, kept]
  exact List.filter_eq_self.mpr fun line member => decide_eq_true (firsts line member).2

/-- The exchange is that for a line of the session: the gateway's refusal, or what a call of
`submit_order` for the order has returned. -/
def Exchanged (args : ClientArgs) (maxSize : Int64) (p : Pool) (i : Nat) (d : Draw) (x : Exchange) :
    Prop :=
  x.line = args.line i d ∧
  match args.refusal maxSize with
  | some reason => x.call = none ∧ x.responses = [.rej (clientId i) reason]
  | none => ∃ call stage r, x.call = some call ∧ p.submits[call]? = some ⟨args.order i d, stage⟩ ∧
      stage.result = some r ∧ x.responses = orderAnswers (args.order i d) r

theorem exchanged_of_answers {p : Pool} {x : Exchange} (plain : Unmarked args.symbol)
    (own : x.line = args.line i d) (answers : x.Answers maxSize p) :
    args.Exchanged maxSize p i d x := by
  have asked : requestOf maxSize (args.line i d) = _ := requestOf_line plain
  refine ⟨own, ?_⟩
  rw [← own] at asked
  unfold Exchange.Answers AnsweredAlone at answers
  rw [asked] at answers
  cases call : x.call with
  | none =>
    rw [call] at answers
    cases refused : args.refusal maxSize with
    | some reason => simpa [refused] using answers
    | none => simp [refused] at answers
  | some k =>
    rw [call] at answers
    obtain ⟨ord, stage, r, same, at_, ended, responses⟩ := answers
    cases refused : args.refusal maxSize with
    | some reason => simp [refused] at same
    | none =>
      obtain rfl : args.order i d = ord := by simpa [refused] using same
      exact ⟨k, stage, r, rfl, at_, ended, responses⟩

end ClientArgs

/-! ### The answers -/

/-- What has been sent to the line that the thread is in. -/
def Handling.acknowledged : Handling → List Response
  | .reading => []
  | .submitting _ ord _ => [.ack ord.clid]

namespace Handler

/-- The responses to each line that the thread has taken. -/
def answers (h : Handler) : List (List Response) :=
  h.answered.map Exchange.responses ++ [h.handling.acknowledged]

theorem sent_eq (h : Handler) : h.sent = h.answers.flatten := by
  cases at_ : h.handling with
  | reading => simp [sent, answers, at_, Handling.acknowledged, List.flatMap_def]
  | submitting line ord call => simp [sent, answers, at_, Handling.acknowledged, List.flatMap_def]

end Handler

/-- The reason of a call that is rejected. -/
def SubmitCall.ReasonPrintable (c : SubmitCall) : Prop :=
  ∀ reason, c.stage = .rejected reason → Printable reason

theorem checkOrder_printable {m : OrderManager} {ord : Order} {reason : Bytes}
    (failed : m.checkOrder ord = some reason) : Printable reason := by
  unfold OrderManager.checkOrder at failed
  split_ifs at failed <;> cases failed <;> exact (words_fine _ (by simp)).2

theorem Pool.reasons_step {p p' : Pool} {a : Section} (all : ∀ c ∈ p.submits, c.ReasonPrintable)
    (stepped : p.step a = some p') : ∀ c ∈ p'.submits, c.ReasonPrintable := by
  cases steps_of_step stepped with
  | rejected ord reason failed =>
    refine List.forall_mem_append.mpr ⟨all, List.forall_mem_singleton.mpr fun reason' same => ?_⟩
    cases same
    exact checkOrder_printable failed
  | checked ord passed =>
    exact List.forall_mem_append.mpr ⟨all, List.forall_mem_singleton.mpr fun _ same =>
      by cases same⟩
  | inserted | matched | updated | returned =>
    intro c member
    rcases List.mem_or_eq_of_mem_set member with old | rfl
    · exact all c old
    · exact fun _ same => by cases same
  | refused | canceled | fed => exact all

theorem Engine.reasons_engine {toDouble : Bytes → Option Double} {maxSize : Int64} {b : UInt64}
    {e e' : Engine} {a : EngineStep b} (all : ∀ c ∈ e.pool.submits, c.ReasonPrintable)
    (stepped : e.step toDouble maxSize a = some e') : ∀ c ∈ e'.pool.submits, c.ReasonPrintable := by
  obtain same | ⟨s, moved⟩ := pool_step stepped
  · exact same ▸ all
  · exact Pool.reasons_step all moved

section Session

variable {args : ClientArgs} {draws : List Draw} {maxSize : Int64} {h : Handler} {p : Pool}

/-- A line that the thread has taken is the one of the session that has its number. -/
theorem line_of_taken {rest : List Bytes} {n k : Nat} {line : Bytes}
    (same : h.taken ++ rest = (args.session draws).take n) (at_ : h.taken[k]? = some line) :
    ∃ d, draws[k]? = some d ∧ line = args.line k d := by
  have whole : ((args.session draws).take n)[k]? = some line := by
    rw [← same, List.getElem?_append_left (List.getElem?_eq_some_iff.mp at_).1]
    exact at_
  have own : (args.session draws)[k]? = some line := by
    rw [List.getElem?_take] at whole
    split_ifs at whole
    exact whole
  rw [ClientArgs.session, List.getElem?_mapIdx] at own
  obtain ⟨d, drawn, rfl⟩ := Option.map_eq_some_iff.mp own
  exact ⟨d, drawn, rfl⟩

/-- A response as the session gets it. -/
def Response.For (i : Nat) (r : Response) : Prop :=
  r.id = clientId i ∧ (∀ f ∈ r.fields, Unmarked f) ∧ Printable r.line

/-- The responses to a line have its id. -/
def Handler.EachFor (h : Handler) : Prop :=
  ∀ (k : Nat) (g : List Response), h.answers[k]? = some g → ∀ r ∈ g, r.For k

theorem printable_line {r : Response} (fields : ∀ f ∈ r.fields, Printable f) :
    Printable r.line := by
  rw [Response.line_eq]
  intro c member
  by_cases bar : c = byte '|'
  · subst bar
    decide
  · by_contra other
    exact Kit.Search.notMem_intercalate (by simpa using bar)
      (fun f listed inside => other (fields f listed c inside))
      member

theorem for_of_fields {i : Nat} {r : Response} (same : r.id = clientId i)
    (fine : ∀ f ∈ r.fields, Unmarked f ∧ Printable f) : r.For i :=
  ⟨same, fun f member => (fine f member).1, printable_line fun f member => (fine f member).2⟩

theorem for_ack (i : Nat) : (Response.ack (clientId i)).For i := by
  apply for_of_fields rfl
  simp only [Response.fields, List.forall_mem_cons]
  exact ⟨words_fine _ (by simp), clientId_fine i, List.forall_mem_nil _⟩

theorem for_rej {i : Nat} {reason : Bytes} (fine : Unmarked reason ∧ Printable reason) :
    (Response.rej (clientId i) reason).For i := by
  apply for_of_fields rfl
  simp only [Response.fields, List.forall_mem_cons]
  exact ⟨words_fine _ (by simp), clientId_fine i, fine, List.forall_mem_nil _⟩

theorem for_fill {i : Nat} {f : Fill} (same : f.clid = clientId i) : (Response.fill f).For i := by
  refine for_of_fields (show f.clid = clientId i from same) ?_
  simp only [Response.fields, List.forall_mem_cons]
  exact ⟨words_fine _ (by simp), same ▸ clientId_fine i, printInt_fine f.size,
    printPrice_fine f.price, List.forall_mem_nil _⟩

/-- The responses to a line of the session. -/
theorem for_of_exchanged {i : Nat} {d : Draw} {x : Exchange} (known : ∀ c ∈ p.submits, c.Known)
    (reasons : ∀ c ∈ p.submits, c.ReasonPrintable) (exchanged : args.Exchanged maxSize p i d x) :
    ∀ r ∈ x.responses, r.For i := by
  obtain ⟨-, exchanged⟩ := exchanged
  cases refused : args.refusal maxSize with
  | some reason =>
    rw [refused] at exchanged
    have fine : Unmarked reason ∧ Printable reason := by
      unfold ClientArgs.refusal at refused
      split_ifs at refused <;> cases refused <;> exact words_fine _ (by simp)
    rw [exchanged.2]
    exact List.forall_mem_singleton.mpr (for_rej fine)
  | none =>
    rw [refused] at exchanged
    obtain ⟨call, stage, result, -, at_, ended, responses⟩ := exchanged
    have own := known _ (List.mem_of_getElem? at_)
    have texts := reasons _ (List.mem_of_getElem? at_)
    rw [responses]
    cases stage with
    | rejected reason =>
      cases ended
      exact List.forall_mem_cons.mpr
        ⟨for_ack i, List.forall_mem_singleton.mpr (for_rej ⟨own, texts reason rfl⟩)⟩
    | returned fills =>
      cases ended
      refine List.forall_mem_cons.mpr ⟨for_ack i, fun r member => ?_⟩
      obtain ⟨f, listed, rfl⟩ := List.mem_map.mp member
      exact for_fill (own f listed)
    | checked | inserted | matched | updated => cases ended

end Session

open Engine

/-- What a run of the engine has done for a client of which it has received a part of a session. -/
theorem Engine.session_of_run {toDouble : Bytes → Option Double} {maxSize : Int64}
    {queue : SpscQueue Event} {b : UInt64} {steps : List (EngineStep b)} {e : Engine}
    (ran : run (step toDouble maxSize) (start maxSize queue b) steps = some e) {args : ClientArgs}
    {draws : List Draw} (plain : Unmarked args.symbol) {h : Handler} (member : h ∈ e.handlers)
    (part : h.received <+: args.stream draws) :
    h.taken ++ lines h.readbuf = (args.session draws).take (h.received.count (byte '\n')) ∧
    (∀ k x, h.answered[k]? = some x → ∃ d, draws[k]? = some d ∧
      args.Exchanged maxSize e.pool k d x) ∧ h.EachFor := by
  have reasons : ∀ c ∈ e.pool.submits, c.ReasonPrintable :=
    run_invariant' (I := fun e => ∀ c ∈ e.pool.submits, c.ReasonPrintable)
      (fun _ _ _ all stepped => reasons_engine all stepped) (List.forall_mem_nil _) ran
  have served := served_of_run ran
  have same : h.taken ++ lines h.readbuf =
      (args.session draws).take (h.received.count (byte '\n')) := by
    obtain ⟨before, received, whole, taken⟩ := framed_of_run ran h member
    rw [taken, ← lines_append whole, ← received]
    exact ClientArgs.lines_of_part plain part
  have exchanged : ∀ k x, h.answered[k]? = some x →
      ∃ d, draws[k]? = some d ∧ args.Exchanged maxSize e.pool k d x := by
    intro k x at_
    have inside : k < (h.answered.map Exchange.line).length := by
      rw [List.length_map]
      exact (List.getElem?_eq_some_iff.mp at_).1
    have taken : h.taken[k]? = some x.line := by
      rw [Handler.taken, List.getElem?_append_left inside, List.getElem?_map, at_, Option.map_some]
    obtain ⟨d, drawn, own⟩ := line_of_taken same taken
    exact ⟨d, drawn,
      ClientArgs.exchanged_of_answers plain own ((served h member).1 x (List.mem_of_getElem? at_))⟩
  refine ⟨same, exchanged, fun k g at_ => ?_⟩
  unfold Handler.answers at at_
  by_cases answered : k < (h.answered.map Exchange.responses).length
  · rw [List.getElem?_append_left answered, List.getElem?_map] at at_
    obtain ⟨x, found, rfl⟩ := Option.map_eq_some_iff.mp at_
    obtain ⟨d, -, own⟩ := exchanged k x found
    exact for_of_exchanged (known_of_run ran) reasons own
  · rw [List.getElem?_append_right (not_lt.mp answered), List.getElem?_singleton] at at_
    split_ifs at at_ with last
    cases at_
    have owns := (served h member).2
    cases busy : h.handling with
    | reading => exact List.forall_mem_nil _
    | submitting line ord call =>
      rw [busy] at owns
      have number : h.taken[k]? = some line := by
        rw [List.length_map] at answered last
        rw [Handler.taken, busy, List.getElem?_append_right (by rw [List.length_map]; omega),
          List.length_map, last]
        rfl
      obtain ⟨d, -, own⟩ := line_of_taken same number
      have asked : requestOf maxSize (args.line k d) = _ := ClientArgs.requestOf_line plain
      rw [← own, owns.1] at asked
      have mine : ord = args.order k d := by
        cases refused : args.refusal maxSize with
        | some reason => simp [refused] at asked
        | none => simpa [refused] using asked
      rw [mine]
      exact List.forall_mem_singleton.mpr (for_ack k)

/-! ### A session -/

def twoHundred : PyFloat where
  double := .finite 200
  representable := by
    have kept := roundToDouble_intCast (n := 200) (by decide)
    refine ⟨by exact_mod_cast kept, ?_⟩
    calc |(200 : ℚ)| < 2 ^ 8 := by norm_num
      _ ≤ 2 ^ 1024 := pow_le_pow_right₀ (by norm_num) (by decide)

def pairArgs : ClientArgs := ⟨bytes "AAPL", some .buy, twoHundred, 60⟩

def pairDraws : List Draw := [⟨.sell, twoHundred⟩, ⟨.buy, twoHundred⟩]

/-- A quote of 100, and a session of two orders, the second of which comes in two pieces. -/
def pairSteps : List (EngineStep 2) :=
  overloaded.map .feed ++
    [.accept, .recv 0 (.of (byte 'O') (bytes "RDER|cli1|BUY|AAPL|200.00|60\nORDER|cl")), .take 0] ++
      List.replicate 4 (.advance 0) ++
    [.recv 0 (.of (byte 'i') (bytes "2|BUY|AAPL|200.00|60\n")), .take 0] ++
      List.replicate 4 (.advance 0)

def pairAnswers : List (List Response) :=
  [[.ack (bytes "cli1"), .fill ⟨bytes "cli1", 60, .finite (347 / 2)⟩],
    [.ack (bytes "cli2"), .fill ⟨bytes "cli2", 40, .finite (347 / 2)⟩], []]

theorem pair_run : ∃ q e h, run (step stod 1000) (start 1000 q 2) pairSteps = some e ∧
    h ∈ e.handlers ∧ h.received <+: pairArgs.stream pairDraws ∧ h.answers = pairAnswers := by
  have runs : ∀ q ∈ SpscQueue.new Event 64 2,
      (run (step stod 1000) (start 1000 q 2) pairSteps).map
          (fun e => e.handlers.map fun h => (h.received, h.answers)) =
        some [(pairArgs.stream pairDraws, pairAnswers)] := by
    decide +kernel
  obtain ⟨q, built, -⟩ := @SpscQueue.new_represents Event _ 64 (le_refl 64) 2 (by decide)
  obtain ⟨e, ran, both⟩ := Option.map_eq_some_iff.mp (runs q built)
  obtain ⟨h, member, own⟩ := List.mem_map.mp
    (both ▸ List.mem_singleton_self (pairArgs.stream pairDraws, pairAnswers))
  obtain ⟨received, answers⟩ := Prod.mk.inj own
  exact ⟨q, e, h, ran, member, received ▸ List.prefix_rfl, answers⟩

/-! ### Reading by ids -/

theorem Response.fields_id (r : Response) : r.fields[1]? = some r.id := by cases r <;> rfl

theorem named_of_for {h : Handler} (each : h.EachFor) (k : Nat) :
    h.sent.filter (fun r => r.fields[1]? = some (clientId k)) = h.answers[k]?.getD [] := by
  have ids : ∀ k g, h.answers[k]? = some g → ∀ r ∈ g, Response.id r = clientId k :=
    fun k g at_ r member => (each k g at_ r member).1
  have named := filter_flatten_named clientId_injective ids k
  rw [h.sent_eq, ← named]
  apply List.filter_congr
  intro r _
  simp only [r.fields_id, Option.some_inj]

theorem for_of_sent {h : Handler} (each : h.EachFor) : ∀ r ∈ h.sent, ∃ k, r.For k := by
  intro r member
  rw [h.sent_eq] at member
  obtain ⟨g, listed, inside⟩ := List.mem_flatten.mp member
  obtain ⟨k, at_⟩ := List.mem_iff_getElem?.mp listed
  exact ⟨k, each k g at_ r inside⟩

/-- In every run of the engine, the thread that has received a part of a session takes its lines in
their order.  It refuses each of them for its size, or answers with what `submit_order` has returned
for the order of that line, with the price in cents.  A reader of the responses finds those to a
line by its id. -/
theorem order_client_answered (toDouble : Bytes → Option Double) (maxSize : Int64)
    (queue : SpscQueue Event) (b : UInt64) (steps : List (EngineStep b)) (e : Engine)
    (ran : run (step toDouble maxSize) (start maxSize queue b) steps = some e) (args : ClientArgs)
    (draws : List Draw) (plain : Unmarked args.symbol) (h : Handler) (member : h ∈ e.handlers)
    (part : h.received <+: args.stream draws) :
    h.taken ++ lines h.readbuf = (args.session draws).take (h.received.count (byte '\n')) ∧
    (∀ k x, h.answered[k]? = some x → ∃ d, draws[k]? = some d ∧
      args.Exchanged maxSize e.pool k d x) ∧
    ∀ s, s <+: h.sent.flatMap Response.text → ∀ k : Nat,
      (readResponses s).filter (fun fields => fields[1]? = some (clientId k)) <+:
        (h.answers[k]?.getD []).map Response.fields ∧
      (s = h.sent.flatMap Response.text →
        (readResponses s).filter (fun fields => fields[1]? = some (clientId k)) =
          (h.answers[k]?.getD []).map Response.fields) := by
  obtain ⟨same, exchanged, each⟩ := session_of_run ran plain member part
  refine ⟨same, exchanged, fun s read k => ?_⟩
  have unmarked : ∀ r ∈ h.sent, ∀ f ∈ r.fields, Unmarked f := by
    intro r listed
    obtain ⟨k, own⟩ := for_of_sent each r listed
    exact own.2.1
  rw [readResponses_of_part unmarked read, List.filter_map, ← named_of_for each k]
  constructor
  · exact ((List.take_prefix _ _).filter _).map _
  · rintro rfl
    rw [stream_eq, count_framed (newline_notMem_responses unmarked), List.length_map,
      List.take_length]
    rfl

/-- The second order of the pair, by its id. -/
theorem order_client_answered_pair :
    ∃ q e h, run (step stod 1000) (start 1000 q 2) pairSteps = some e ∧ h ∈ e.handlers ∧
    (readResponses (h.sent.flatMap Response.text)).filter (fun fields =>
      fields[1]? = some (clientId 1)) =
      [[bytes "ACK", bytes "cli2"], [bytes "FILL", bytes "cli2", bytes "40", bytes "173.50"]] := by
  obtain ⟨q, e, h, ran, member, part, answers⟩ := pair_run
  obtain ⟨-, -, reads⟩ := order_client_answered stod 1000 q 2 pairSteps e ran pairArgs pairDraws
    (by decide) h member part
  refine ⟨q, e, h, ran, member, ?_⟩
  rw [(reads _ List.prefix_rfl 1).2 rfl, answers]
  decide +kernel

/-! ### Printing -/

section Printing

variable {line t : PyStr}

theorem splitlinesFrom_flatten (plain : ∀ c ∈ t, isLineBoundary c = true → c = 10) :
    (splitlinesFrom line t).flatten = line ++ t.filter (· ≠ 10) := by
  fun_induction splitlinesFrom line t with
  | case1 => simp
  | case2 line some_ => simp
  | case3 line cs ih => exact absurd (plain 13 List.mem_cons_self rfl) (by decide)
  | case4 line c cs _ boundary ih =>
    obtain ⟨first, others⟩ := List.forall_mem_cons.mp plain
    rw [List.flatten_cons, ih others, first boundary]
    rfl
  | case5 line c cs _ inner ih =>
    have kept : c ≠ 10 := by
      rintro rfl
      exact inner rfl
    rw [ih (List.forall_mem_cons.mp plain).2, List.filter_cons_of_pos (by simpa using kept),
      List.append_assoc]
    rfl

theorem splitlinesFrom_part {piece : PyStr} (member : piece ∈ splitlinesFrom line t)
    (free : 10 ∉ line) :
    piece <:+: line ++ t ∧ 10 ∉ piece := by
  fun_induction splitlinesFrom line t with
  | case1 => cases member
  | case2 line some_ =>
    rw [List.mem_singleton.mp member, List.append_nil]
    exact ⟨List.infix_rfl, free⟩
  | case3 line cs ih =>
    rcases List.mem_cons.mp member with rfl | later
    · exact ⟨List.infix_append_left, free⟩
    · obtain ⟨inside, none⟩ := ih later List.not_mem_nil
      exact ⟨inside.trans ((List.suffix_append (line ++ [13, 10]) cs).isInfix.trans (by simp)),
        none⟩
  | case4 line c cs _ boundary ih =>
    rcases List.mem_cons.mp member with rfl | later
    · exact ⟨List.infix_append_left, free⟩
    · obtain ⟨inside, none⟩ := ih later List.not_mem_nil
      exact ⟨inside.trans ((List.suffix_append (line ++ [c]) cs).isInfix.trans (by simp)), none⟩
  | case5 line c cs _ inner ih =>
    have kept : 10 ≠ c := by
      rintro rfl
      exact inner rfl
    obtain ⟨inside, none⟩ := ih member (by simp [free, kept])
    exact ⟨by rwa [List.append_assoc] at inside, none⟩

/-- The first line is printed, and then the others. -/
theorem splitlinesFrom_first {r : PyStr} (plain : ∀ c ∈ r, isLineBoundary c = false)
    (line rest : PyStr) :
    splitlinesFrom line (r ++ 10 :: rest) = (line ++ r) :: splitlinesFrom [] rest := by
  induction r generalizing line with
  | nil =>
    rw [List.nil_append, List.append_nil]
    rfl
  | cons c r ih =>
    obtain ⟨first, others⟩ := List.forall_mem_cons.mp plain
    have next : splitlinesFrom line (c :: (r ++ 10 :: rest)) = splitlinesFrom (line ++ [c])
        (r ++ 10 :: rest) := by
      rw [splitlinesFrom, if_neg (by simp [first])]
      intro _ return_
      rw [return_] at first
      cases first
    rw [List.cons_append, next, ih others, List.append_assoc]
    rfl

/-- Whole lines are printed as they are. -/
theorem splitlinesFrom_framed {records : List PyStr}
    (plain : ∀ r ∈ records, ∀ c ∈ r, isLineBoundary c = false) :
    splitlinesFrom [] (framed 10 records) = records := by
  induction records with
  | nil => rfl
  | cons r records ih =>
    obtain ⟨first, others⟩ := List.forall_mem_cons.mp plain
    have text : framed 10 (r :: records) = r ++ 10 :: framed 10 records := by simp [framed]
    rw [text, splitlinesFrom_first first, ih others, List.nil_append]

/-- Chunks that end with lines are printed as their lines. -/
theorem printed_of_ended {records : List PyStr}
    (plain : ∀ r ∈ records, ∀ c ∈ r, isLineBoundary c = false)
    {texts : List PyStr} (part : texts.flatten <+: framed 10 records)
    (ended : ∀ text ∈ texts, text.getLast? = some 10) :
    texts.flatMap (splitlinesFrom []) = records.take (texts.flatten.count 10) := by
  have free : ∀ r ∈ records, 10 ∉ r := fun r listed inside => by cases plain r listed 10 inside
  induction texts generalizing records with
  | nil => rfl
  | cons text texts ih =>
    obtain ⟨first, others⟩ := List.forall_mem_cons.mp ended
    rw [List.flatten_cons] at part
    obtain ⟨whole, rest, rfl, rfl⟩ :=
      framed_of_ended ((List.prefix_append _ _).trans part) free first
    rw [framed_append] at part
    obtain ⟨own, later⟩ := List.forall_mem_append.mp plain
    obtain ⟨ownFree, laterFree⟩ := List.forall_mem_append.mp free
    rw [List.flatMap_cons, splitlinesFrom_framed own,
      ih later ((List.prefix_append_right_inj _).mp part) others laterFree, List.flatten_cons,
        List.count_append,
      count_framed ownFree, List.take_length_add_append]

theorem printed_flatten {texts : List PyStr}
    (plain : ∀ c ∈ texts.flatten, isLineBoundary c = true → c = 10) :
    (texts.flatMap (splitlinesFrom [])).flatten = texts.flatten.filter (· ≠ 10) := by
  induction texts with
  | nil => rfl
  | cons text texts ih =>
    obtain ⟨first, others⟩ := List.forall_mem_append.mp plain
    rw [List.flatMap_cons, List.flatten_append, ih others, splitlinesFrom_flatten first,
      List.nil_append, List.flatten_cons, List.filter_append]

theorem mapM_decode {decode : Bytes → Option PyStr} {chunks : List Bytes}
    (decodes : ∀ chunk ∈ chunks, decode chunk = some (chunk.map UInt8.toNat)) :
    chunks.mapM decode = some (chunks.map (List.map UInt8.toNat)) := by
  induction chunks with
  | nil => rfl
  | cons chunk chunks ih =>
    obtain ⟨first, others⟩ := List.forall_mem_cons.mp decodes
    rw [List.mapM_cons, first, ih others]
    rfl

end Printing

theorem framed_toNat (records : List Bytes) :
    (framed (byte '\n') records).map UInt8.toNat = framed 10 (records.map (List.map UInt8.toNat)) :=
  map_framed UInt8.toNat (byte '\n') records

/-- A printable text as characters. -/
theorem printable_toNat {s : Bytes} (printable : Printable s) :
    ∀ c ∈ s.map UInt8.toNat, c < 128 ∧ isLineBoundary c = false := by
  intro c member
  obtain ⟨u, inside, rfl⟩ := List.mem_map.mp member
  have visible : ∀ u : Fin 256, 32 ≤ UInt8.ofFin u ∧ UInt8.ofFin u < 127 →
      (UInt8.ofFin u).toNat < 128 ∧ isLineBoundary (UInt8.ofFin u).toNat = false := by
        decide +kernel
  exact visible u.toFin (printable u inside)

/-- What the client prints in such a run decodes and is the stream of responses without its
newlines.  No line that it prints is made of two responses, and where the chunks end with lines it
prints the responses. -/
theorem order_client_prints (toDouble : Bytes → Option Double) (maxSize : Int64)
    (queue : SpscQueue Event) (b : UInt64) (steps : List (EngineStep b)) (e : Engine)
    (ran : run (step toDouble maxSize) (start maxSize queue b) steps = some e) (args : ClientArgs)
    (draws : List Draw) (plain : Unmarked args.symbol) (h : Handler) (member : h ∈ e.handlers)
    (part : h.received <+: args.stream draws) (decode : Bytes → Option PyStr)
    (ascii : ∀ s : Bytes, (∀ c ∈ s, c < 128) → decode s = some (s.map UInt8.toNat))
    (chunks : List Bytes) (got : chunks.flatten <+: h.sent.flatMap Response.text) :
    ∃ printed, printedLines decode chunks = some printed ∧
      printed.flatten = (chunks.flatten.filter (· ≠ byte '\n')).map UInt8.toNat ∧
      (∀ piece ∈ printed, piece ≠ [] → ∃ r ∈ h.sent, piece <:+: r.line.map UInt8.toNat) ∧
      ((∀ chunk ∈ chunks, chunk.getLast? = some (byte '\n')) →
        printed = (h.sent.take (chunks.flatten.count (byte '\n'))).map fun r =>
          r.line.map UInt8.toNat) := by
  obtain ⟨-, -, each⟩ := session_of_run ran plain member part
  have visible : ∀ record ∈ (h.sent.map Response.line).map (List.map UInt8.toNat), ∀ c ∈ record,
      c < 128 ∧ isLineBoundary c = false := by
    intro record listed
    obtain ⟨line, lined, rfl⟩ := List.mem_map.mp listed
    obtain ⟨r, sent, rfl⟩ := List.mem_map.mp lined
    obtain ⟨k, -, -, printable⟩ := for_of_sent each r sent
    exact printable_toNat printable
  have texts : (chunks.map (List.map UInt8.toNat)).flatten = chunks.flatten.map UInt8.toNat :=
    List.map_flatten.symm
  have inside : (chunks.map (List.map UInt8.toNat)).flatten <+:
      framed 10 ((h.sent.map Response.line).map (List.map UInt8.toNat)) := by
    rw [texts, ← framed_toNat, ← stream_eq]
    exact got.map _
  have among : ∀ c ∈ (chunks.map (List.map UInt8.toNat)).flatten,
      c < 128 ∧ (isLineBoundary c = true → c = 10) := by
    intro c member
    obtain ⟨record, listed, found⟩ := List.mem_flatMap.mp (inside.subset member)
    rcases List.mem_append.mp found with own | newline
    · obtain ⟨small, inner⟩ := visible record listed c own
      exact ⟨small, fun boundary => absurd (inner.symm.trans boundary) Bool.false_ne_true⟩
    · rw [List.mem_singleton.mp newline]
      exact ⟨by decide, fun _ => rfl⟩
  have decodes : ∀ chunk ∈ chunks, decode chunk = some (chunk.map UInt8.toNat) := by
    intro chunk listed
    apply ascii
    intro c member
    have small := (among c.toNat (List.mem_flatten.mpr
      ⟨_, List.mem_map_of_mem listed, List.mem_map_of_mem member⟩)).1
    exact UInt8.lt_iff_toNat_lt.mpr small
  refine ⟨_, by rw [printedLines, mapM_decode decodes, Option.map_some], ?_, ?_, ?_⟩
  · rw [printed_flatten fun c member => (among c member).2, texts, List.filter_map]
    refine congrArg _ (List.filter_congr fun u _ => ?_)
    have newline : u.toNat = 10 ↔ u = byte '\n' := by
      rw [← UInt8.toNat_inj]
      rfl
    simp only [Function.comp_apply, ne_eq, newline]
  · intro piece listed some_
    obtain ⟨text, chosen, listed⟩ := List.mem_flatMap.mp listed
    obtain ⟨part, free⟩ := splitlinesFrom_part listed List.not_mem_nil
    obtain ⟨record, recorded, own⟩ := infix_of_framed
      (part.trans ((List.infix_of_mem_flatten chosen).trans inside.isInfix)) free some_
    obtain ⟨line, lined, rfl⟩ := List.mem_map.mp recorded
    obtain ⟨r, sent, rfl⟩ := List.mem_map.mp lined
    exact ⟨r, sent, own⟩
  · intro ended
    have each : ∀ text ∈ chunks.map (List.map UInt8.toNat), text.getLast? = some 10 := by
      intro text listed
      obtain ⟨chunk, chosen, rfl⟩ := List.mem_map.mp listed
      rw [List.getLast?_map, ended chunk chosen]
      rfl
    rw [printed_of_ended (fun record listed c member => (visible record listed c member).2) inside
      each, texts]
    have count : (chunks.flatten.map UInt8.toNat).count 10 = chunks.flatten.count (byte '\n') :=
      List.count_map_of_injective _ _ (fun _ _ => UInt8.toNat_inj.mp) (byte '\n')
    rw [count, ← List.map_take, ← List.map_take, List.map_map]
    rfl

/-- The pair's client gets the first response and its newline apart. -/
theorem order_client_prints_pair :
    ∃ q e h, run (step stod 1000) (start 1000 q 2) pairSteps = some e ∧ h ∈ e.handlers ∧
      ∃ printed,
        printedLines (fun s => some (s.map UInt8.toNat)) [bytes "ACK|cli1", bytes "\n"] =
          some printed ∧
        printed.flatten = pyStr "ACK|cli1" ∧
        ∀ piece ∈ printed, piece ≠ [] → ∃ r ∈ h.sent, piece <:+: r.line.map UInt8.toNat := by
  obtain ⟨q, e, h, ran, member, part, answers⟩ := pair_run
  have got : [bytes "ACK|cli1", bytes "\n"].flatten <+: h.sent.flatMap Response.text := by
    rw [h.sent_eq, answers]
    decide +kernel
  obtain ⟨printed, prints, joined, pieces, -⟩ :=
    order_client_prints stod 1000 q 2 pairSteps e ran pairArgs pairDraws (by decide) h member part
      (fun s => some (s.map UInt8.toNat)) (fun _ _ => rfl) _ got
  refine ⟨q, e, h, ran, member, printed, prints, joined.trans ?_, pieces⟩
  decide +kernel

end EtradePipeline
