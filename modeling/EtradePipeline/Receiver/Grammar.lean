import EtradePipeline.Receiver.Agreement
import EtradePipeline.Receiver.Fields
import EtradePipeline.Receiver.Rounding

/-! The grammar of the feed's messages, and the datagrams that the receiver accepts beyond it.  The
integers are taken whole, but of the price `std::stod` takes the longest prefix that converts. -/

namespace EtradePipeline

/-! ### The grammar -/

/-- A message of the feed. -/
structure Message where
  seq : Integer
  msgTs : Integer
  symbol : Bytes
  price : Numeral
  size : Integer
  seq_unsigned : seq.sign ≠ .plus
  msgTs_unsigned : msgTs.sign ≠ .plus
  size_unsigned : size.sign ≠ .plus
  symbol_field : byte '|' ∉ symbol
  price_finite : price.Finite

namespace Message

variable (m : Message)

def fields : List Bytes := [m.seq.text, m.msgTs.text, m.symbol, m.price.text, m.size.text]

def text : Bytes := [byte '|'].intercalate m.fields

/-- The integers have at most 18 digits. -/
def Short : Prop :=
  m.seq.digits.length ≤ 18 ∧ m.msgTs.digits.length ≤ 18 ∧ m.size.digits.length ≤ 18

end Message

/-- The event has the values of the message. -/
structure Event.Carries (ev : Event) (m : Message) : Prop where
  seq : ev.seq = m.seq.value
  msgTsMs : ev.msgTsMs = m.msgTs.value
  price : ev.price = m.price.double
  size : ev.size = m.size.value

/-- The same queue, record lines and counters, and the same events.  `batchesReceived` counts the
calls that return datagrams, whatever these hold. -/
structure Receiver.SameOutput (r r' : Receiver) : Prop where
  queue : r.queue = r'.queue
  lines : r.lines = r'.lines
  processed : r.processed = r'.processed
  dropped : r.dropped = r'.dropped
  lastLatencyMs : r.lastLatencyMs = r'.lastLatencyMs
  accepted : r.accepted = r'.accepted

/-- A group without the datagrams of one content. -/
def Group.without {b : UInt64} (g : Group b) (payload : Bytes) : Group b where
  arrivals := g.arrivals.filter fun a => a.datagram.payload ≠ payload
  batched := g.batched
  fits := (List.length_filter_le _ _).trans g.fits

/-- A datagram of that content does nothing on either receive path: a pass of the first leaves
everything as it was, and a pass of the second does what it does without it. -/
structure Silent (payload : Bytes) : Prop where
  poll : ∀ (r r' : Receiver) (p : Poll) (d : Datagram), p.first = some d → d.payload = payload →
    r.poll stod p = some r' → r.SameOutput r'
  group : ∀ (b : UInt64) (r : Receiver) (g : Group b), r.batchBufs.length = b.toNat →
    (r.group stod g).SameOutput (r.group stod (g.without payload))

/-- The receiver takes a datagram as the grammar says. -/
structure FollowsFeedGrammar (payload : Bytes) : Prop where
  builds : ∀ recvTsMs source, (receiveEvent stod payload recvTsMs source).isSome = true ↔
    ∃ m : Message, m.text = payload
  carries : ∀ m : Message, m.text = payload → m.Short →
    ∀ recvTsMs source ev, receiveEvent stod payload recvTsMs source = some ev → ev.Carries m
  silent : (∀ m : Message, m.text ≠ payload) → Silent payload

/-- A price that converts is a numeral as a whole, and one that is a numeral does not underflow:
with 53 digits it is not below the least normal `double`, or it is a `double` itself. -/
structure PriceWhole (price : Bytes) : Prop where
  whole : (stod price).isSome = true → decimalRest price = some []
  normal : ∀ n : Numeral, n.text = price → |roundTo53Digits n.value| < 2 ^ (-1022 : Int) →
    roundToDouble n.value = n.value

/-- The price of a datagram is taken whole, where the other fields are in order. -/
def TakenWithPrice (payload : Bytes) : Prop :=
  ∀ seq msgTs symbol price size, payload.splitOn (byte '|') = [seq, msgTs, symbol, price, size] →
    (toLl seq).isSome = true → (toLl msgTs).isSome = true → (toLl size).isSome = true →
    PriceWhole price

/-! ### The parser -/

theorem convert_eq_ok {α β ε : Type} {x : Option α} {e : ε} {f : α → Except ε β} {b : β} :
    ((x.elim (throw e) pure : Except ε α) >>= f) = .ok b ↔ ∃ a, x = some a ∧ f a = .ok b := by
  cases x with
  | none =>
    refine iff_of_false (fun thrown => ?_) (by simp)
    cases thrown
  | some a => simp [bind, Except.bind, pure, Except.pure]

/-- The parser accepts five fields when those of the four numbers convert. -/
theorem parse_eq_ok {toDouble : Bytes → Option Double} {sv : Bytes} {fields : Fields} :
    parse toDouble sv = .ok fields ↔ ∃ seq msgTs price size,
      sv.splitOn (byte '|') = [seq, msgTs, fields.symbol, price, size] ∧
      toLl seq = some fields.seq ∧ toLl msgTs = some fields.msgTs ∧
      toDouble price = some fields.price ∧ toLl size = some fields.size := by
  obtain ⟨seq', msgTs', symbol', price', size'⟩ := fields
  rw [parse, splitSv_eq]
  split
  · rename_i seq msgTs symbol price size split
    simp only [convert_eq_ok, split, List.cons.injEq, and_true]
    constructor
    · rintro ⟨a, ha, b, hb, c, hc, d, hd, made⟩
      cases made
      exact ⟨seq, msgTs, price, size, ⟨rfl, rfl, rfl, rfl, rfl⟩, ha, hb, hc, hd⟩
    · rintro ⟨_, _, _, _, ⟨rfl, rfl, rfl, rfl, rfl⟩, ha, hb, hc, hd⟩
      exact ⟨_, ha, _, hb, _, hc, _, hd, rfl⟩
  · rename_i few
    refine iff_of_false (fun thrown => ?_) ?_
    · cases thrown
    · rintro ⟨seq, msgTs, price, size, split, -⟩
      exact few _ _ _ _ _ split

theorem receiveEvent_eq_some {toDouble : Bytes → Option Double} {sv : Bytes} {recvTsMs : Int}
    {source : Source} {ev : Event} :
    receiveEvent toDouble sv recvTsMs source = some ev ↔
      ∃ fields, parse toDouble sv = .ok fields ∧ buildEvent fields recvTsMs source = ev := by
  unfold receiveEvent
  cases parse toDouble sv <;> simp

theorem receiveEvent_isSome {toDouble : Bytes → Option Double} {sv : Bytes} {recvTsMs : Int}
    {source : Source} :
    (receiveEvent toDouble sv recvTsMs source).isSome = true ↔
      ∃ fields, parse toDouble sv = .ok fields := by
  unfold receiveEvent
  cases parse toDouble sv <;> simp

/-! ### Messages -/

namespace Message

variable (m : Message)

theorem fields_free : ∀ f ∈ m.fields, byte '|' ∉ f := by
  have plain : byte '|' ∉ numeralBytes := by decide
  simp only [fields, List.forall_mem_cons]
  exact ⟨fun c => plain (m.seq.text_subset c), fun c => plain (m.msgTs.text_subset c),
    m.symbol_field, fun c => plain (m.price.text_subset c), fun c => plain (m.size.text_subset c),
    List.forall_mem_nil _⟩

theorem splitOn_text : m.text.splitOn (byte '|') = m.fields :=
  List.splitOn_intercalate _ m.fields_free (List.cons_ne_nil _ _)

theorem parse_text {d : Double} (converted : stod m.price.text = some d) :
    parse stod m.text = .ok ⟨wrap64 m.seq.value, wrap64 m.msgTs.value, m.symbol, m.price.double,
      wrap64 m.size.value⟩ := by
  obtain ⟨-, rfl⟩ := double_of_stod converted
  exact parse_eq_ok.mpr ⟨_, _, _, _, m.splitOn_text, toLl_text m.seq_unsigned,
    toLl_text m.msgTs_unsigned, converted, toLl_text m.size_unsigned⟩

end Message

/-- A finite numeral converts unless it underflows. -/
theorem stod_of_normal {n : Numeral} (finite : n.Finite)
    (normal : |roundTo53Digits n.value| < 2 ^ (-1022 : Int) → roundToDouble n.value = n.value) :
    stod n.text = some n.double := by
  rw [stod_text]
  simp only [Double.nearest, if_neg (not_le.mpr finite)]
  exact if_neg fun small => small.2 (normal small.1)

/-- Fields of which three convert and one is a finite numeral make a message. -/
theorem message_of_fields {payload seq msgTs symbol size : Bytes} {n : Numeral} {v w x : Int}
    (split : payload.splitOn (byte '|') = [seq, msgTs, symbol, n.text, size])
    (hseq : toLl seq = some v)
    (hmsgTs : toLl msgTs = some w) (hsize : toLl size = some x) (finite : n.Finite) :
    ∃ m : Message, m.text = payload := by
  obtain ⟨i, hi, rfl⟩ := exists_integer_of_toLl hseq
  obtain ⟨j, hj, rfl⟩ := exists_integer_of_toLl hmsgTs
  obtain ⟨k, hk, rfl⟩ := exists_integer_of_toLl hsize
  have text : [byte '|'].intercalate (payload.splitOn (byte '|')) = payload :=
    List.intercalate_splitOn _
  have free : byte '|' ∉ symbol := Kit.Split.splitOn_free payload symbol (by rw [split]; simp)
  rw [split] at text
  exact ⟨⟨i, j, symbol, n, k, hi, hj, hk, free, finite⟩, text⟩

/-- A datagram that the parser accepts is a message, when its price is taken whole. -/
theorem exists_message {payload : Bytes} {fields : Fields} (tight : TakenWithPrice payload)
    (parsed : parse stod payload = .ok fields) : ∃ m : Message, m.text = payload := by
  obtain ⟨seq, msgTs, price, size, split, hseq, hmsgTs, hprice, hsize⟩ := parse_eq_ok.mp parsed
  have whole := tight _ _ _ _ _ split (by simp [hseq]) (by simp [hmsgTs]) (by simp [hsize])
  obtain ⟨n, rfl⟩ := decimalRest_eq_nil.mp (whole.whole (by simp [hprice]))
  exact message_of_fields split hseq hmsgTs hsize (double_of_stod hprice).1

/-! ### Rejected datagrams -/

namespace Receiver

variable {r r' : Receiver}

theorem SameOutput.trans {r'' : Receiver} (first : r.SameOutput r') (second : r'.SameOutput r'') :
    r.SameOutput r'' :=
  ⟨first.queue.trans second.queue, first.lines.trans second.lines,
    first.processed.trans second.processed, first.dropped.trans second.dropped,
    first.lastLatencyMs.trans second.lastLatencyMs, first.accepted.trans second.accepted⟩

theorem SameOutput.symm (same : r.SameOutput r') : r'.SameOutput r :=
  ⟨same.queue.symm, same.lines.symm, same.processed.symm, same.dropped.symm,
    same.lastLatencyMs.symm, same.accepted.symm⟩

/-- What is recorded and pushed depends on the output so far only. -/
theorem SameOutput.push (same : r.SameOutput r') (events : Batch Event) :
    ((r.record events.items).pushEvents events).SameOutput
      ((r'.record events.items).pushEvents events) := by
  obtain ⟨queue, buffer, bufs, lines, processed, dropped, batches, latency, accepted, parsed⟩ := r
  obtain ⟨rfl, rfl, rfl, rfl, rfl, rfl⟩ := same
  unfold pushEvents
  split_ifs <;> exact ⟨rfl, rfl, rfl, rfl, rfl, rfl⟩

theorem SameOutput.nothing (r : Receiver) {events : Batch Event} (none : events.items = []) :
    r.SameOutput ((r.record events.items).pushEvents events) := by
  unfold pushEvents
  rw [none]
  exact ⟨rfl, (List.append_nil _).symm, rfl, rfl, rfl, rfl⟩

/-- A pass of the `recvmmsg` path records and pushes the events of the group. -/
theorem group_output {b : UInt64} (g : Group b) (fits : g.arrivals.length ≤ r.batchBufs.length) :
    ∃ events : Batch Event, events.items = g.events stod ∧
      (r.group stod g).SameOutput ((r.record events.items).pushEvents events) := by
  have built : buildEvents stod (r.views g) = g.events stod := by
    rw [views_eq fits, buildEvents, List.filterMap_map]
    rfl
  refine ⟨⟨buildEvents stod (r.views g), buildEvents_length_lt stod r g⟩, built, ?_⟩
  unfold group
  split_ifs with empty
  · refine SameOutput.nothing r ?_
    simp only [built, Group.events, List.isEmpty_iff.mp empty, List.filterMap_nil]
  · exact @SameOutput.push
      { r with
        batchBufs := (r.messages g).map Prod.snd ++ r.batchBufs.drop g.arrivals.length
        batchesReceived := r.batchesReceived + 1
        parsed := r.parsed ++ (r.views g).map (Prod.map Arrival.datagram id) }
      r ⟨rfl, rfl, rfl, rfl, rfl, rfl⟩ _

end Receiver

theorem receiveEvent_eq_none {payload : Bytes}
    (rejected : ∀ fields, parse stod payload ≠ .ok fields)
    (recvTsMs : Int) (source : Source) : receiveEvent stod payload recvTsMs source = none := by
  refine Option.eq_none_iff_forall_ne_some.mpr fun ev received => ?_
  obtain ⟨fields, parsed, -⟩ := receiveEvent_eq_some.mp received
  exact rejected fields parsed

theorem silent_of_rejected {payload : Bytes}
    (rejected : ∀ fields, parse stod payload ≠ .ok fields) :
    Silent payload where
  poll := by
    rintro r r' ⟨first, second, recvTsMs⟩ d rfl rfl stepped
    cases second with
    | none =>
      cases stepped
      exact ⟨rfl, rfl, rfl, rfl, rfl, rfl⟩
    | some other =>
      simp only [Receiver.poll, PacketBuf.view_recv _ d (by decide : 8192 ≤ 65536),
        receiveEvent_eq_none rejected] at stepped
      cases stepped
      exact ⟨rfl, rfl, rfl, rfl, rfl, rfl⟩
  group := by
    intro b r g bufs
    obtain ⟨events, items, output⟩ := Receiver.group_output g (bufs ▸ g.fits)
    obtain ⟨events', items', output'⟩ :=
      Receiver.group_output (g.without payload) (bufs ▸ (g.without payload).fits)
    have same : (g.without payload).events stod = g.events stod := by
      simp only [Group.events, Group.without, List.filterMap_filter]
      refine List.filterMap_congr fun a _ => ?_
      by_cases this : a.datagram.payload = payload
      · simp [this, receiveEvent_eq_none rejected]
      · simp [this]
    obtain rfl : events' = events := by
      have equal := items'.trans (same.trans items.symm)
      cases events
      cases events'
      simpa using equal
    exact output.trans output'.symm

theorem Message.price_text_eq {m : Message} {seq msgTs symbol price size : Bytes}
    (split : m.text.splitOn (byte '|') = [seq, msgTs, symbol, price, size]) :
    m.price.text = price := by
  have same := m.splitOn_text.symm.trans split
  simp only [fields, List.cons.injEq] at same
  exact same.2.2.2.1

/-- `strtod` reports an underflow as out of range. -/
theorem exact_of_stod {n : Numeral} {d : Double} (converts : stod n.text = some d)
    (small : |roundTo53Digits n.value| < 2 ^ (-1022 : Int)) : roundToDouble n.value = n.value := by
  by_contra inexact
  rw [stod_text] at converts
  simp only [Double.nearest, if_neg (not_le.mpr (roundToDouble_finite_of_small small))] at converts
  rw [if_pos ⟨small, inexact⟩] at converts
  cases converts

/-- The price of a message converts, where it is taken whole. -/
theorem TakenWithPrice.converts {m : Message} (tight : TakenWithPrice m.text) :
    stod m.price.text = some m.price.double := by
  have whole := tight _ _ _ _ _ m.splitOn_text (by simp [toLl_text m.seq_unsigned])
    (by simp [toLl_text m.msgTs_unsigned]) (by simp [toLl_text m.size_unsigned])
  exact stod_of_normal m.price_finite (whole.normal m.price rfl)

end EtradePipeline
