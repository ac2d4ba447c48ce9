import EtradePipeline.Gateway.Answers

/-! The grammar of `ORDER` lines, and the lines that the gateway accepts beyond it.  Each part is
read loosely: what follows the sixth part is dropped, a side that is not `BUY` sells, the
conversions take the longest prefix, and a price that does not convert becomes a NaN. -/

namespace EtradePipeline

open Kit.Getline (getlines getlines_free length_getlines_le getlines_intercalate count_intercalate
  intercalate_getlines)

/-! ### The grammar -/

def Side.text : Side → Bytes
  | .buy => bytes "BUY"
  | .sell => bytes "SELL"

/-- An order of the protocol. -/
structure OrderLine (maxSize : Int64) where
  clid : Bytes
  side : Side
  symbol : Bytes
  price : Numeral
  size : Integer
  clid_nonempty : clid ≠ []
  symbol_nonempty : symbol ≠ []
  clid_field : byte '|' ∉ clid
  symbol_field : byte '|' ∉ symbol
  price_finite : price.Finite
  size_positive : 1 ≤ size.value
  size_allowed : size.value ≤ maxSize.toInt

namespace OrderLine

variable {maxSize : Int64} (l : OrderLine maxSize)

def fields : List Bytes :=
  [bytes "ORDER", l.clid, l.side.text, l.symbol, l.price.text, l.size.text]

def text : Bytes := [byte '|'].intercalate l.fields

/-- The order that carries the values of the line. -/
def order : Order := ⟨l.clid, l.side, l.symbol, l.price.double, l.size.value⟩

end OrderLine

/-- The order that `handle_client` makes of a line and submits. -/
def submittedOrder (maxSize : Int64) (line : Bytes) : Option Order :=
  match requestOf maxSize line with
  | some (.order ord) => some ord
  | _ => none

variable {maxSize : Int64} {maxOpen : UInt64}

/-- The line makes the gateway call `submit_order` for the order, and it sends the acknowledgement
and what the call returns.  Without a manager the order meets the snapshot of its symbol instead. -/
def Backend.Performs (b : Backend maxSize maxOpen) (line : Bytes) (ord : Order) : Prop :=
  match b with
  | .inProcess mgr =>
    (b.answer line).1 = orderAnswers ord (mgr.manager.submitOrder ord).1 ∧
      ∃ mgr' : Shared maxSize maxOpen, (b.answer line).2 = .inProcess mgr' ∧
        mgr'.manager = (mgr.manager.submitOrder ord).2
  | .snapshots read metrics => b.answer line = Venue.fillAtSnapshot read metrics ord
  | .terminated _ => False

/-- The gateway answers a line as the grammar says. -/
structure Backend.FollowsGrammar (b : Backend maxSize maxOpen) (line : Bytes) : Prop where
  acks : (∃ r ∈ (b.answer line).1, r.isAck = true) ↔ ∃ l : OrderLine maxSize, l.text = line
  submits : ∀ ord, submittedOrder maxSize line = some ord ↔
    ∃ l : OrderLine maxSize, l.text = line ∧ l.order = ord
  performs : ∀ l : OrderLine maxSize, l.text = line → b.Performs line l.order
  rejects : IsOrderLine line → (∀ l : OrderLine maxSize, l.text ≠ line) →
    (∃ clid reason, (b.answer line).1 = [.rej clid reason]) ∧ (b.answer line).2 = b.countRejected

/-- The line has nothing behind the six parts, none of them is missing, and the two numbers convert
as a whole. -/
structure TakenWhole (line clid side symbol price size : Bytes) : Prop where
  six : line.count (byte '|') = 5
  clid_nonempty : clid ≠ []
  side_named : side = bytes "BUY" ∨ side = bytes "SELL"
  symbol_nonempty : symbol ≠ []
  price_whole : decimalRest price = some []
  price_converts : (stod price).isSome = true
  size_whole : integerRest size = some []

/-- A line that the gateway takes for an order is taken whole. -/
def NotLoose (maxSize : Int64) (line : Bytes) : Prop :=
  ∀ clid side symbol price size more,
    parts line = bytes "ORDER" :: clid :: side :: symbol :: price :: size :: more →
    ∀ n, stoll size = some n → 0 < n → n ≤ maxSize.toInt →
    TakenWhole line clid side symbol price size

/-! ### Lines of the grammar -/

namespace OrderLine

variable (l : OrderLine maxSize)

theorem fields_free : ∀ f ∈ l.fields, byte '|' ∉ f := by
  have plain : byte '|' ∉ numeralBytes := by decide
  have side : byte '|' ∉ l.side.text := by cases l.side <;> decide
  simp only [fields, List.forall_mem_cons]
  exact ⟨by decide, l.clid_field, side, l.symbol_field, fun c => plain (l.price.text_subset c),
    fun c => plain (l.size.text_subset c), List.forall_mem_nil _⟩

theorem size_text_ne_nil : l.size.text ≠ [] := by
  simp [Integer.text, digitText, l.size.nonempty]

theorem parts_text : parts l.text = l.fields :=
  getlines_intercalate l.fields_free (by simpa [fields] using l.size_text_ne_nil)

theorem count_text : l.text.count (byte '|') = 5 :=
  Nat.add_right_cancel (count_intercalate l.fields_free (List.cons_ne_nil _ _))

theorem stoll_size : stoll l.size.text = some l.size.value := by
  have positive := l.size_positive
  have allowed := l.size_allowed
  have bound := maxSize.toInt_lt
  rw [stoll_text, if_pos ⟨by unfold llongMin; omega, by omega⟩]

theorem side_of_text : (if l.side.text = bytes "BUY" then Side.buy else .sell) = l.side := by
  cases l.side <;> decide

theorem request_text (converts : (stod l.price.text).isSome = true) :
    requestOf maxSize l.text = some (.order l.order) := by
  obtain ⟨d, converted⟩ := Option.isSome_iff_exists.mp converts
  obtain ⟨-, rfl⟩ := double_of_stod converted
  have bad : ¬ (l.size.value ≤ 0 ∨ l.size.value = llongMin) := by
    have positive := l.size_positive
    unfold llongMin
    omega
  simp only [requestOf, l.parts_text, fields, request, if_true, orderRequest, converted,
    l.stoll_size,
    Option.getD_some, if_neg bad, if_neg (not_lt.mpr l.size_allowed), l.side_of_text, order]

theorem takenWhole_text (converts : (stod l.price.text).isSome = true) :
    TakenWhole l.text l.clid l.side.text l.symbol l.price.text l.size.text where
  six := l.count_text
  clid_nonempty := l.clid_nonempty
  side_named := by cases l.side <;> decide
  symbol_nonempty := l.symbol_nonempty
  price_whole := decimalRest_eq_nil.mpr ⟨l.price, rfl⟩
  price_converts := converts
  size_whole := integerRest_eq_nil.mpr ⟨l.size, rfl⟩

end OrderLine

/-! ### Lines that the gateway takes -/

theorem requestOf_of_submitted {line : Bytes} {ord : Order}
    (submitted : submittedOrder maxSize line = some ord) :
    requestOf maxSize line = some (.order ord) := by
  unfold submittedOrder at submitted
  split at submitted
  · rename_i found
    rw [found, Option.some.inj submitted]
  · cases submitted

theorem parts_of_submitted {line : Bytes} {ord : Order}
    (submitted : submittedOrder maxSize line = some ord) :
    ∃ clid side symbol price size more,
      parts line = bytes "ORDER" :: clid :: side :: symbol :: price :: size :: more ∧
      ∃ n, stoll size = some n ∧ 0 < n ∧ n ≤ maxSize.toInt ∧
        ord = ⟨clid, if side = bytes "BUY" then .buy else .sell, symbol,
          (stod price).getD .nan, n⟩ := by
  have asked := requestOf_of_submitted submitted
  obtain ⟨args, cut⟩ := List.head?_eq_some_iff.mp (isOrderLine_of_order asked)
  simp only [requestOf, cut, request, if_pos] at asked
  split at asked
  · rename_i clid side symbol price size more
    refine ⟨clid, side, symbol, price, size, more, cut, ?_⟩
    rcases orderRequest_cases maxSize clid side symbol price size with
      ⟨reason, refused⟩ | ⟨n, converted, positive, allowed, made⟩
    · rw [refused] at asked
      cases asked
    · rw [made] at asked
      exact ⟨n, converted, positive, allowed, (Request.order.inj (Option.some.inj asked)).symm⟩
  · cases asked

theorem requestOf_parts {line clid side symbol price size : Bytes} {more : List Bytes} {n : Int}
    (cut : parts line = bytes "ORDER" :: clid :: side :: symbol :: price :: size :: more)
    (converted : stoll size = some n) (positive : 0 < n) (allowed : n ≤ maxSize.toInt) :
    requestOf maxSize line = some (.order
      ⟨clid, if side = bytes "BUY" then .buy else .sell, symbol, (stod price).getD .nan, n⟩) := by
  have bad : ¬ (n ≤ 0 ∨ n = llongMin) := by
    unfold llongMin
    omega
  simp only [requestOf, cut, request, if_true, orderRequest, converted,
    Option.getD_some, if_neg bad, if_neg (not_lt.mpr allowed)]

/-- A line that is taken whole is one of the grammar, with the values that the gateway reads. -/
theorem exists_orderLine {line clid side symbol price size : Bytes} {more : List Bytes} {n : Int}
    (cut : parts line = bytes "ORDER" :: clid :: side :: symbol :: price :: size :: more)
    (converted : stoll size = some n) (positive : 0 < n) (allowed : n ≤ maxSize.toInt)
    (whole : TakenWhole line clid side symbol price size) :
    ∃ l : OrderLine maxSize, l.text = line ∧
      l.order =
        ⟨clid, if side = bytes "BUY" then .buy else .sell, symbol, (stod price).getD .nan, n⟩ := by
  obtain ⟨numeral, rfl⟩ := decimalRest_eq_nil.mp whole.price_whole
  obtain ⟨integer, rfl⟩ := integerRest_eq_nil.mp whole.size_whole
  obtain ⟨d, converts⟩ := Option.isSome_iff_exists.mp whole.price_converts
  obtain ⟨finite, rfl⟩ := double_of_stod converts
  rw [stoll_text] at converted
  obtain ⟨-, value⟩ := Option.ite_none_right_eq_some.mp converted
  obtain rfl := Option.some.inj value
  have free : ∀ f ∈ parts line, byte '|' ∉ f := getlines_free
  rw [cut] at free
  have few : (parts line).length ≤ line.count (byte '|') + 1 := length_getlines_le
  rw [whole.six, cut] at few
  obtain rfl : more = [] := by
    simp only [List.length_cons] at few
    exact List.length_eq_zero_iff.mp (by omega)
  have text : [byte '|'].intercalate (parts line) = line :=
    intercalate_getlines (by rw [whole.six, show getlines _ [] line = _ from cut]; rfl)
  rw [cut] at text
  have named : ∃ s : Side, s.text = side ∧
      (if side = bytes "BUY" then Side.buy else .sell) = s := by
    rcases whole.side_named with rfl | rfl
    · exact ⟨.buy, rfl, rfl⟩
    · exact ⟨.sell, rfl, by decide⟩
  obtain ⟨s, rfl, same⟩ := named
  refine ⟨⟨clid, s, symbol, numeral, integer, whole.clid_nonempty, whole.symbol_nonempty,
    free clid (by simp), free symbol (by simp), finite, positive, allowed⟩, text, ?_⟩
  rw [OrderLine.order, same, converts, Option.getD_some]

/-- An order that the gateway makes of a line is performed. -/
theorem performs_of_submitted {b : Backend maxSize maxOpen} (running : b.Running) {line : Bytes}
    {ord : Order} (submitted : submittedOrder maxSize line = some ord) : b.Performs line ord := by
  have answered := b.answer_of_some (requestOf_of_submitted submitted)
  cases b with
  | inProcess mgr =>
    simp only [Backend.Performs, answered]
    exact ⟨rfl, _, rfl, rfl⟩
  | snapshots read metrics => exact answered
  | terminated metrics => exact running.elim

theorem ack_of_performs {b : Backend maxSize maxOpen} {line : Bytes} {ord : Order}
    (performs : b.Performs line ord) : ∃ r ∈ (b.answer line).1, r.isAck = true := by
  refine ⟨.ack ord.clid, ?_, rfl⟩
  cases b with
  | inProcess mgr =>
    rw [performs.1, orderAnswers]
    split <;> exact List.mem_cons_self
  | snapshots read metrics =>
    obtain ⟨filled, -, responses⟩ :=
      @Venue.fillAtSnapshot_responses (Shared maxSize maxOpen) read metrics ord
    rw [show (Backend.answer _ line) = _ from performs, responses]
    exact List.mem_cons_self
  | terminated metrics => exact performs.elim

theorem submitted_of_ack {b : Backend maxSize maxOpen} {line : Bytes}
    (acked : ∃ r ∈ (b.answer line).1, r.isAck = true) :
    ∃ ord, submittedOrder maxSize line = some ord := by
  unfold Backend.answer Venue.answer at acked
  unfold submittedOrder
  cases asked : requestOf maxSize line with
  | none => simp [asked] at acked
  | some r =>
    rw [asked] at acked
    cases r with
    | order ord => exact ⟨ord, rfl⟩
    | refuse clid reason counted => cases b <;> simp [Venue.perform, Response.isAck] at acked
    | cancel clid =>
      cases b with
      | snapshots read metrics | terminated metrics => simp [Venue.perform, Response.isAck] at acked
      | inProcess mgr =>
        simp only [Venue.perform] at acked
        split at acked <;> simp [Response.isAck] at acked

theorem ack_iff_submitted {b : Backend maxSize maxOpen} (running : b.Running) (line : Bytes) :
    (∃ r ∈ (b.answer line).1, r.isAck = true) ↔ ∃ ord, submittedOrder maxSize line = some ord :=
  ⟨submitted_of_ack, fun ⟨_, submitted⟩ =>
    ack_of_performs (performs_of_submitted running submitted)⟩

theorem rejected_of_not_submitted {b : Backend maxSize maxOpen} (running : b.Running) {line : Bytes}
    (isOrder : IsOrderLine line) (none : ∀ ord, submittedOrder maxSize line ≠ some ord) :
    (∃ clid reason, (b.answer line).1 = [.rej clid reason]) ∧
      (b.answer line).2 = b.countRejected := by
  rcases @requestOf_cases maxSize line isOrder with ⟨clid, reason, refused⟩ | ⟨ord, asked, -⟩
  · simp only [Backend.answer, Venue.answer, refused, Venue.perform]
    cases b with
    | inProcess mgr | snapshots read metrics => exact ⟨⟨clid, reason, rfl⟩, rfl⟩
    | terminated metrics => exact running.elim
  · exact absurd (by rw [submittedOrder, asked]) (none ord)

/-- The gateway follows the grammar on a line, exactly when it does not take it for an order
loosely. -/
theorem grammar_exact_iff (b : Backend maxSize maxOpen) (running : b.Running) (line : Bytes) :
    b.FollowsGrammar line ↔ NotLoose maxSize line := by
  constructor
  · intro follows clid side symbol price size more cut n converted positive allowed
    have asked := requestOf_parts cut converted positive allowed
    obtain ⟨l, rfl, made⟩ := (follows.submits _).mp (by rw [submittedOrder, asked])
    have fields := l.parts_text.symm.trans cut
    simp only [OrderLine.fields, List.cons.injEq] at fields
    obtain ⟨-, rfl, rfl, rfl, rfl, rfl, -⟩ := fields
    refine l.takenWhole_text ?_
    -- A price that does not convert would be a NaN.
    cases converts : stod l.price.text with
    | some d => rfl
    | none =>
      rw [converts] at made
      exact absurd (congrArg Order.price made) (by simp [OrderLine.order, Numeral.double])
  · intro tight
    have agrees : ∀ ord, submittedOrder maxSize line = some ord ↔
        ∃ l : OrderLine maxSize, l.text = line ∧ l.order = ord := by
      intro ord
      constructor
      · intro submitted
        obtain ⟨clid, side, symbol, price, size, more, cut, n, converted, positive, allowed, rfl⟩ :=
          parts_of_submitted submitted
        exact exists_orderLine cut converted positive allowed
          (tight _ _ _ _ _ _ cut n converted positive allowed)
      · rintro ⟨l, rfl, rfl⟩
        have whole := tight _ _ _ _ _ _ l.parts_text _ l.stoll_size l.size_positive l.size_allowed
        rw [submittedOrder, l.request_text whole.price_converts]
    refine ⟨?_, agrees, fun l same => performs_of_submitted running ((agrees _).mpr ⟨l, same, rfl⟩),
      fun isOrder none => rejected_of_not_submitted running isOrder ?_⟩
    · rw [ack_iff_submitted running]
      simp only [agrees]
      exact ⟨fun ⟨_, l, same, _⟩ => ⟨l, same⟩, fun ⟨l, same⟩ => ⟨l.order, l, same, rfl⟩⟩
    · intro ord submitted
      obtain ⟨l, same, -⟩ := (agrees ord).mp submitted
      exact none l same

/-- A line of the grammar. -/
theorem grammar_exact_iff_of_order :
    freshGateway.FollowsGrammar (bytes "ORDER|c1|BUY|AAPL|1.5|5") := by
  refine (grammar_exact_iff freshGateway trivial _).mpr ?_
  intro clid side symbol price size more cut n converted positive allowed
  have own : parts (bytes "ORDER|c1|BUY|AAPL|1.5|5") =
      [bytes "ORDER", bytes "c1", bytes "BUY", bytes "AAPL", bytes "1.5", bytes "5"] := by
    decide +kernel
  have fields := own.symm.trans cut
  simp only [List.cons.injEq] at fields
  obtain ⟨-, rfl, rfl, rfl, rfl, rfl, -⟩ := fields
  constructor <;> decide +kernel

/-- A line whose side and price are no side and no number is answered by `ACK`, and an order that
sells at a NaN is submitted. -/
theorem loose_line_accepted :
    let line := bytes "ORDER|c1|buy|AAPL|market|5"
    (∃ r ∈ (freshGateway.answer line).1, r.isAck = true) ∧
    freshGateway.Performs line ⟨bytes "c1", .sell, bytes "AAPL", .nan, 5⟩ ∧
    ¬ freshGateway.FollowsGrammar line := by
  intro line
  have submitted : submittedOrder 1000 line =
      some ⟨bytes "c1", .sell, bytes "AAPL", .nan, 5⟩ := by decide +kernel
  have running : freshGateway.Running := trivial
  have performs := performs_of_submitted running submitted
  refine ⟨ack_of_performs performs, performs, fun follows => ?_⟩
  obtain ⟨l, -, made⟩ := (follows.submits _).mp submitted
  exact absurd (congrArg Order.price made) (by simp [OrderLine.order, Numeral.double])

end EtradePipeline
