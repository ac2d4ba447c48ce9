import EtradePipeline.Kit.Json.Torn
import EtradePipeline.Receiver.RecordJson
import EtradePipeline.Receiver.WritevAll
import EtradePipeline.Service.LastLines
import EtradePipeline.Service.Metrics

/-! The record file between the receiver, which appends the lines of a group of datagrams by
`writev_all`, and the events API, which reads its last lines at any time.  A call of `writev_all`
may fail in a line, or not have ended yet. -/

namespace EtradePipeline

open Kit.Json (Value Plain Entry Tellable Level Replaces objectText)
open Kit.Split (filled)
open Kit.TornLog (Fragment framed ReadsWhole RefusesTorn)
open Kit.Transition (run)

/-! ### The writer -/

/-- The events of a group of datagrams, and what its calls of `writev` have returned so far. -/
structure RecordGroup where
  events : List Event
  outcomes : List WritevOutcome

namespace RecordGroup

/-- `write_iovs`. -/
def writeIovs (g : RecordGroup) : Option (List Bytes) :=
  g.events.mapM fun ev => (recordLine ev).written

/-- What the file has taken of a group. -/
def taken (g : RecordGroup) : Option Bytes := do
  let iov ← g.writeIovs
  let w ← run (WritevAll.step iov) (WritevAll.start iov) g.outcomes
  return w.file

/-- Not all lines of the group are in the file. -/
def stopped (g : RecordGroup) : Bool := g.taken ≠ g.writeIovs.map List.flatten

end RecordGroup

/-- `events.jsonl` after groups. -/
def eventsFile (groups : List RecordGroup) : Option Bytes :=
  (groups.mapM RecordGroup.taken).map List.flatten

/-! ### The reader -/

section Reader

variable (decode : Bytes → PyStr) (loads : PyStr → Option Value)

/-- The object of a line, in the loop of `get_events`. -/
def lineObject (line : PyStr) : Option Value :=
  let line := strip line
  if line = [] then none else loads line

/-- `get_events`. -/
def getEvents (file : Option Bytes) (tail : Int) : List Value :=
  (readLastLines decode file tail).filterMap (lineObject loads)

/-- The decoding of ASCII texts, and `json.loads` of ASCII texts as short as a line, which reads
what JSON has, and beside that only some constants. -/
structure ReadsAscii : Prop where
  decodes : ∀ s : Bytes, (∀ c ∈ s, c < 128) → decode s = s.map UInt8.toNat
  reads : ∀ (s : Bytes) (v : Value), (∀ c ∈ s, c < 128) → s.length < 512 →
    Kit.Json.parse s = some v → loads (s.map UInt8.toNat) = some v
  only : ∀ s : Bytes, (∀ c ∈ s, c < 128) → (loads (s.map UInt8.toNat)).isSome = true →
    ∃ t, Replaces s t ∧ (Kit.Json.parse t).isSome = true

end Reader

/-! ### The lines -/

/-- An event whose record fits the buffer and is JSON. -/
structure Event.Recordable (ev : Event) : Prop where
  price : ∃ q, ev.price = .finite q
  symbol : ∀ c ∈ ev.symbolStr, Plain c ∧ c < 128
  src : ∀ c ∈ ev.src.cstr, Plain c ∧ c < 128
  fits : (recordText ev).length < 512

/-- The price of a record, as the number that it is. -/
def Double.value : Double → ℚ
  | .finite q => q
  | .nan | .negInf | .posInf => 0

/-- The object of an event's record. -/
def Event.object (ev : Event) : Value := .obj (recordMembers ev ev.price.value)

/-- The events of accepted datagrams are recordable when their records fit and their symbols are
plain. -/
theorem recordable_of_received {toDouble : Bytes → Option Double} {payload : Bytes} {recvTsMs : Int}
    {source : Source} {ev : Event} {q : ℚ}
    (received : receiveEvent toDouble payload recvTsMs source = some ev)
    (price : ev.price = .finite q)
    (fits : (recordText ev).length < 512) (symbol : ∀ c ∈ ev.symbolStr, Plain c ∧ c < 128) :
    ev.Recordable := by
  have ascii : ∀ c ∈ recordBytes, Plain c ∧ c < 128 := by decide +kernel
  exact ⟨⟨q, price⟩, symbol, fun c member => ascii c (src_subset received member), fits⟩

section Lines

variable {ev : Event}

/-- The members of a record, as they are written. -/
theorem Event.Recordable.entries (recordable : ev.Recordable) :
    ∃ entries : List Entry, recordLineText ev = objectText entries ∧ Tellable entries := by
  obtain ⟨q, price⟩ := recordable.price
  have symbol := fun c member => (recordable.symbol c member).1
  have src := fun c member => (recordable.src c member).1
  let entries : List Entry :=
    [numberEntry "seq" (by decide +kernel) (writes_printInt ev.seq),
      numberEntry "msg_ts_ms" (by decide +kernel) (writes_printInt ev.msgTsMs),
      numberEntry "recv_ts_ms" (by decide +kernel) (writes_printInt ev.recvTsMs),
      numberEntry "latency_ms" (by decide +kernel) (writes_printInt ev.latencyMs),
      textEntry "symbol" (by decide +kernel) symbol,
      numberEntry "price" (by decide +kernel) (writes_printPrice q),
      numberEntry "size" (by decide +kernel) (writes_printInt ev.size),
      textEntry "src" (by decide +kernel) src]
  have calm : ∀ c ∈ numeralBytes, Kit.Json.Calm c := by decide +kernel
  have number : ∀ x, Level (printInt x) := fun x =>
    Kit.Json.level_calm fun c member => calm c (printInt_subset x member)
  have priced : Level (printPrice (.finite q)) :=
    Kit.Json.level_calm fun c member => calm c (printPrice_subset q member)
  refine ⟨entries, ?_, ?_, ?_⟩
  · simp [entries, recordLineText, recordPieces, numberPiece, objectText, Entry.written,
      numberEntry, textEntry, price, Event.symbolStr, bytes, byte, Kit.Json.char]
  · simp only [entries, List.forall_mem_cons]
    exact ⟨number _, number _, number _, number _, Kit.Json.level_string symbol, priced, number _,
      Kit.Json.level_string src, List.forall_mem_nil _⟩
  · have first : (bytes "seq").head? = some (byte 's') := by decide +kernel
    exact ⟨_, rfl, byte 's', first, fun _ => rfl⟩

/-- The characters of a record's line. -/
theorem Event.Recordable.printable (recordable : ev.Recordable) :
    ∀ c ∈ recordLineText ev, ¬ c < 32 ∧ c < 128 := by
  obtain ⟨q, price⟩ := recordable.price
  have ascii : ∀ c ∈ byte ':' :: byte ',' :: numeralBytes, ¬ c < 32 ∧ c < 128 := by decide +kernel
  have number : ∀ x : Bytes, x ⊆ numeralBytes → ∀ c ∈ numberPiece x, ¬ c < 32 ∧ c < 128 := by
    intro x numeral c member
    refine ascii c ?_
    rw [numberPiece, List.mem_cons, List.mem_append, List.mem_singleton] at member
    rcases member with rfl | inside | rfl
    · exact List.mem_cons_self
    · exact List.mem_cons_of_mem _ (List.mem_cons_of_mem _ (numeral inside))
    · exact List.mem_cons_of_mem _ List.mem_cons_self
  have pieces : ∀ piece ∈ recordPieces ev, ∀ c ∈ piece, ¬ c < 32 ∧ c < 128 := by
    have symbol : ∀ c ∈ ev.symbol.cstr, ¬ c < 32 ∧ c < 128 := fun c member =>
      ⟨(recordable.symbol c member).1.2.2, (recordable.symbol c member).2⟩
    have src : ∀ c ∈ ev.src.cstr, ¬ c < 32 ∧ c < 128 := fun c member =>
      ⟨(recordable.src c member).1.2.2, (recordable.src c member).2⟩
    have priced := number _ (price ▸ printPrice_subset q : printPrice ev.price ⊆ numeralBytes)
    have printed := fun x => number _ (printInt_subset x)
    simp only [recordPieces, List.forall_mem_cons]
    refine ⟨?_, ?_, printed _, ?_, printed _, ?_, printed _, ?_, printed _, ?_, ?_, symbol,
      ?_, ?_, priced, ?_, printed _, ?_, ?_, src, ?_, List.forall_mem_nil _⟩
    all_goals decide +kernel
  intro c member
  by_contra bad
  have quote : c ≠ byte '"' := by
    rintro rfl
    exact bad (by decide)
  exact Kit.Search.notMem_intercalate quote (fun piece hp inside =>
    bad (pieces piece hp c inside)) member

/-- A brace begins a line, and a brace ends it. -/
theorem Event.Recordable.braces (recordable : ev.Recordable) :
    ∃ inner, recordLineText ev = byte '\x7b' :: (inner ++ [byte '\x7d']) := by
  obtain ⟨entries, text, -⟩ := recordable.entries
  exact ⟨_, text⟩

theorem Event.Recordable.parses (recordable : ev.Recordable) :
    Kit.Json.parse (recordLineText ev) = some ev.object := by
  obtain ⟨q, price⟩ := recordable.price
  have parsed := parse_record price (fun c member => (recordable.symbol c member).1)
    fun c member => (recordable.src c member).1
  rw [parsed, Event.object, price, Double.value]

end Lines

/-! ### Reading a line -/

section Reading

variable {decode : Bytes → PyStr} {loads : PyStr → Option Value}

/-- The characters that `strip` takes off. -/
def isSpaceByte (c : UInt8) : Bool := isPySpace c.toNat

/-- What `get_events` reads in a line of the file. -/
def readLine (decode : Bytes → PyStr) (loads : PyStr → Option Value) (s : Bytes) : Option Value :=
  lineObject loads (decode s)

/-- `json.loads` of an ASCII text. -/
def loadsAscii (loads : PyStr → Option Value) (s : Bytes) : Option Value :=
  if s.all fun c => decide (c < 128) then loads (s.map UInt8.toNat) else none

theorem loadsAscii_of (loads : PyStr → Option Value) {s : Bytes} (ascii : ∀ c ∈ s, c < 128) :
    loadsAscii loads s = loads (s.map UInt8.toNat) :=
  if_pos (List.all_eq_true.mpr fun c member => decide_eq_true (ascii c member))

theorem rdropWhile_map {α β : Type*} (p : β → Bool) (f : α → β) (l : List α) :
    (l.map f).rdropWhile p = (l.rdropWhile (p ∘ f)).map f := by
  rw [List.rdropWhile, List.rdropWhile, ← List.map_reverse, List.dropWhile_map, List.map_reverse]

/-- A line that starts with a brace is only trimmed at its end. -/
theorem strip_brace (text : ReadsAscii decode loads) {s : Bytes} (ascii : ∀ c ∈ s, c < 128)
    (brace : s.head? = some (byte '\x7b')) :
    strip (decode s) = (s.rdropWhile isSpaceByte).map UInt8.toNat ∧ strip (decode s) ≠ [] := by
  obtain ⟨tail, rfl⟩ := List.head?_eq_some_iff.mp brace
  have solid : isSpaceByte (byte '\x7b') = false := by decide
  have stripped : strip (decode (byte '\x7b' :: tail)) =
      ((byte '\x7b' :: tail).rdropWhile isSpaceByte).map UInt8.toNat := by
    have start : ((byte '\x7b' :: tail).map UInt8.toNat).dropWhile isPySpace =
        (byte '\x7b' :: tail).map UInt8.toNat := by
      rw [List.map_cons, List.dropWhile_cons_of_neg]
      exact Bool.not_eq_true _ ▸ solid
    rw [text.decodes _ ascii, strip, start, rdropWhile_map]
    rfl
  refine ⟨stripped, fun none => ?_⟩
  rw [stripped, List.map_eq_nil_iff] at none
  have all := List.rdropWhile_eq_nil_iff.mp none _ List.mem_cons_self
  rw [solid] at all
  cases all

theorem readLine_brace (text : ReadsAscii decode loads) {s : Bytes} (ascii : ∀ c ∈ s, c < 128)
    (brace : s.head? = some (byte '\x7b')) :
    readLine decode loads s = loadsAscii loads (s.rdropWhile isSpaceByte) := by
  obtain ⟨stripped, filled⟩ := strip_brace text ascii brace
  have kept : ∀ c ∈ s.rdropWhile isSpaceByte, c < 128 :=
    fun c member => ascii c ((List.rdropWhile_prefix _ _).subset member)
  rw [readLine, lineObject, if_neg filled, stripped, loadsAscii_of loads kept]

variable {events : List Event}

theorem readsWhole_lines (text : ReadsAscii decode loads)
    (recordable : ∀ ev ∈ events, ev.Recordable) :
    ReadsWhole (readLine decode loads) (fun s => (Kit.Json.parse s).getD .null)
      (events.map recordLineText) := by
  intro r member
  obtain ⟨ev, he, rfl⟩ := List.mem_map.mp member
  have known := recordable ev he
  obtain ⟨inner, braces⟩ := known.braces
  have ascii := fun c member => (known.printable c member).2
  have trimmed : (recordLineText ev).rdropWhile isSpaceByte = recordLineText ev := by
    rw [braces, ← List.cons_append, List.rdropWhile_concat_neg _ _ _ (by decide)]
  have short : (recordLineText ev).length < 512 := by
    have fits := known.fits
    rw [recordText_eq, List.length_append] at fits
    omega
  rw [readLine_brace text ascii (by rw [braces]; rfl), trimmed, loadsAscii_of loads ascii,
    text.reads _ _ ascii short known.parses]
  simp only [known.parses, Option.getD_some]

theorem head_of_line (recordable : ∀ ev ∈ events, ev.Recordable) :
    ∀ r ∈ events.map recordLineText, r.head? = some (byte '\x7b') := by
  intro r member
  obtain ⟨ev, he, rfl⟩ := List.mem_map.mp member
  obtain ⟨inner, braces⟩ := (recordable ev he).braces
  rw [braces]
  rfl

/-- A line of the file, which is made of fragments. -/
theorem fragments_line (recordable : ∀ ev ∈ events, ev.Recordable) {line : List Bytes}
    (filled : line ≠ []) (fragments : ∀ f ∈ line, ∃ r ∈ events.map recordLineText, Fragment r f) :
    (∀ c ∈ line.flatten, c < 128) ∧ line.flatten.head? = some (byte '\x7b') := by
  constructor
  · intro c member
    obtain ⟨f, hf, inside⟩ := List.mem_flatten.mp member
    obtain ⟨r, hr, -, part⟩ := fragments f hf
    obtain ⟨ev, he, rfl⟩ := List.mem_map.mp hr
    exact ((recordable ev he).printable c (part.subset inside)).2
  · obtain ⟨f, more, rfl⟩ := List.exists_cons_of_ne_nil filled
    obtain ⟨r, hr, some_, part⟩ := fragments f List.mem_cons_self
    obtain ⟨c, f, rfl⟩ := List.exists_cons_of_ne_nil some_
    obtain ⟨behind, rfl⟩ := part
    have head : some c = some (byte '\x7b') := head_of_line recordable _ hr
    exact head

theorem refusesTorn_lines (text : ReadsAscii decode loads)
    (recordable : ∀ ev ∈ events, ev.Recordable) :
    RefusesTorn (readLine decode loads) (events.map recordLineText) := by
  have objects : Kit.Json.Objects (events.map recordLineText) := by
    intro r member
    obtain ⟨ev, he, rfl⟩ := List.mem_map.mp member
    exact (recordable ev he).entries
  have sound : ∀ s, (loadsAscii loads s).isSome = true →
      ∃ t, Replaces s t ∧ (Kit.Json.parse t).isSome = true := by
    intro s accepted
    unfold loadsAscii at accepted
    split_ifs at accepted with ascii
    · exact text.only s (fun c member =>
        of_decide_eq_true (List.all_eq_true.mp ascii c member)) accepted
    · cases accepted
  refine (Kit.Json.refuses_torn objects sound).trimmed isSpaceByte
    (fun r member => ⟨_, head_of_line recordable r member, by decide⟩) fun line filled fragments =>
      ?_
  obtain ⟨ascii, brace⟩ := fragments_line recordable filled fragments
  exact readLine_brace text ascii brace

end Reading

/-! ### The file -/

theorem mapM_eq_map {α β : Type} {f : α → Option β} {g : α → β} {l : List α}
    (all : ∀ x ∈ l, f x = some (g x)) : l.mapM f = some (l.map g) := by
  induction l with
  | nil => rfl
  | cons x l ih =>
    obtain ⟨first, others⟩ := List.forall_mem_cons.mp all
    rw [List.mapM_cons, first, ih others]
    rfl

/-- A list that maps to results maps to what these are. -/
theorem eq_map_of_mapM {α β : Type} {f : α → Option β} {l : List α} {r : List β}
    (mapped : l.mapM f = some r)
    (default : β) : r = l.map (fun x => (f x).getD default) ∧ ∀ x ∈ l, (f x).isSome = true := by
  induction l generalizing r with
  | nil =>
    cases mapped
    exact ⟨rfl, List.forall_mem_nil _⟩
  | cons x l ih =>
    simp only [List.mapM_cons, Option.bind_eq_bind, Option.bind_eq_some_iff, Option.pure_def,
      Option.some.injEq] at mapped
    obtain ⟨y, first, rest, others, rfl⟩ := mapped
    obtain ⟨same, all⟩ := ih others
    refine ⟨?_, List.forall_mem_cons.mpr ⟨by rw [first, Option.isSome_some], all⟩⟩
    rw [List.map_cons, first, Option.getD_some, ← same]

section File

variable {decode : Bytes → PyStr} {loads : PyStr → Option Value} {g : RecordGroup}
  {groups : List RecordGroup}

theorem writeIovs_eq (recordable : ∀ ev ∈ g.events, ev.Recordable) :
    g.writeIovs = some (g.events.map recordText) :=
  mapM_eq_map fun ev member => record_written (recordable ev member).fits

theorem framed_lines (events : List Event) :
    framed (byte '\n') (events.map recordLineText) = (events.map recordText).flatten := by
  rw [framed, List.flatMap_map, List.flatMap_def]
  exact congrArg List.flatten (List.map_congr_left fun ev _ => (recordText_eq ev).symm)

/-- The file takes the first part of a group's lines. -/
theorem part_of_taken (recordable : ∀ ev ∈ g.events, ev.Recordable) {w : Bytes}
    (taken : g.taken = some w) :
    w <+: framed (byte '\n') (g.events.map recordLineText) ∧
      (g.stopped = true ↔ w ≠ framed (byte '\n') (g.events.map recordLineText)) := by
  have iov := writeIovs_eq recordable
  have filled : ∀ buf ∈ g.events.map recordText, buf ≠ [] := by
    intro buf member
    obtain ⟨ev, -, rfl⟩ := List.mem_map.mp member
    rw [recordText_eq]
    exact List.append_ne_nil_of_right_ne_nil _ (List.cons_ne_nil _ _)
  have stopped : g.stopped = true ↔ w ≠ framed (byte '\n') (g.events.map recordLineText) := by
    rw [RecordGroup.stopped, taken, iov, framed_lines]
    simp
  refine ⟨?_, stopped⟩
  simp only [RecordGroup.taken, iov, Option.bind_eq_bind, Option.bind_some, Option.bind_eq_some_iff]
    at taken
  obtain ⟨end_, ran, same⟩ := taken
  cases same
  rw [framed_lines]
  exact (WritevAll.inv_run filled ran).prefix_

/-- The events of groups. -/
def groupEvents (groups : List RecordGroup) : List Event := groups.flatMap RecordGroup.events

/-- What the lines of the file hold: some of the events, in their order, and no more lines without
one than groups have stopped. -/
theorem lines_of_eventsFile (text : ReadsAscii decode loads)
    (recordable : ∀ ev ∈ groupEvents groups, ev.Recordable) {content : Bytes}
    (file : eventsFile groups = some content) :
    ∃ served : List Event, served.Sublist (groupEvents groups) ∧
      (filled (byte '\n') content).filterMap (readLine decode loads) = served.map Event.object ∧
      content.count (byte '\n') ≤ (filled (byte '\n') content).length ∧
      (filled (byte '\n') content).length ≤ served.length + groups.countP RecordGroup.stopped ∧
      ∀ s ∈ filled (byte '\n') content, strip (decode s) ≠ [] := by
  obtain ⟨parts, mapped, rfl⟩ := Option.map_eq_some_iff.mp file
  obtain ⟨same, all⟩ := eq_map_of_mapM mapped []
  let writes := groups.map fun g => (g.events.map recordLineText, g.taken.getD [])
  have content : parts.flatten = writes.flatMap Prod.snd := by
    rw [same, List.flatMap_map, List.flatMap_def]
  have records : writes.flatMap Prod.fst = (groupEvents groups).map recordLineText := by
    rw [List.flatMap_map, groupEvents, List.map_flatMap]
  have own : ∀ g ∈ groups, ∀ ev ∈ g.events, ev.Recordable :=
    fun g hg ev he => recordable ev (List.mem_flatMap.mpr ⟨g, hg, he⟩)
  have each : ∀ g ∈ groups, g.taken = some (g.taken.getD []) :=
    fun g hg => (Option.some_get (all g hg)).symm.trans (by rw [Option.get_eq_getD])
  have part : ∀ w ∈ writes, w.2 <+: framed (byte '\n') w.1 := by
    intro w member
    obtain ⟨g, hg, rfl⟩ := List.mem_map.mp member
    exact (part_of_taken (own g hg) (each g hg)).1
  have stopped : (writes.countP fun w => w.2 ≠ framed (byte '\n') w.1) =
      groups.countP RecordGroup.stopped := by
    rw [List.countP_map]
    refine List.countP_congr fun g hg => ?_
    rw [Function.comp_apply, decide_eq_true_iff]
    exact (part_of_taken (own g hg) (each g hg)).2.symm
  have filled : ∀ r ∈ writes.flatMap Prod.fst, r ≠ [] := by
    rw [records]
    intro r member
    obtain ⟨ev, he, rfl⟩ := List.mem_map.mp member
    obtain ⟨inner, braces⟩ := (recordable ev he).braces
    exact braces ▸ List.cons_ne_nil _ _
  have free : ∀ r ∈ writes.flatMap Prod.fst, byte '\n' ∉ r := by
    rw [records]
    intro r member newline
    obtain ⟨ev, he, rfl⟩ := List.mem_map.mp member
    exact ((recordable ev he).printable _ newline).1 (by decide)
  obtain ⟨served, read, order, lines, missed, fragments⟩ :=
    Kit.TornLog.read_log writes part filled free
      (records ▸ readsWhole_lines text recordable) (records ▸ refusesTorn_lines text recordable)
  rw [records] at order
  obtain ⟨events, sub, rfl⟩ := List.sublist_map_iff.mp order
  rw [← content] at read lines missed fragments
  rw [stopped, List.length_map] at missed
  refine ⟨events, sub, ?_, lines, missed, fun s member => ?_⟩
  · rw [read, List.map_map]
    refine List.map_congr_left fun ev member => ?_
    simp only [Function.comp_apply, (recordable ev (sub.subset member)).parses, Option.getD_some]
  · obtain ⟨line, rfl, some_, parts⟩ := fragments s member
    rw [records] at parts
    obtain ⟨ascii, brace⟩ := fragments_line recordable some_ parts
    exact (strip_brace text ascii brace).2

/-- Without a group that has stopped the file has a line for each event. -/
theorem count_of_eventsFile (recordable : ∀ ev ∈ groupEvents groups, ev.Recordable)
    {content : Bytes}
    (file : eventsFile groups = some content) (whole : groups.countP RecordGroup.stopped = 0) :
    content.count (byte '\n') = (groupEvents groups).length := by
  obtain ⟨parts, mapped, rfl⟩ := Option.map_eq_some_iff.mp file
  obtain ⟨same, all⟩ := eq_map_of_mapM mapped []
  have own : ∀ g ∈ groups, ∀ ev ∈ g.events, ev.Recordable :=
    fun g hg ev he => recordable ev (List.mem_flatMap.mpr ⟨g, hg, he⟩)
  have each : ∀ g ∈ groups,
      (g.taken.getD []).count (byte '\n') = (g.events.map recordLineText).length := by
    intro g hg
    obtain ⟨w, taken⟩ := Option.isSome_iff_exists.mp (all g hg)
    have unstopped : ¬ g.stopped = true := List.countP_eq_zero.mp whole g hg
    rw [(part_of_taken (own g hg) taken).2, not_not] at unstopped
    rw [taken, Option.getD_some, unstopped]
    refine Kit.TornLog.count_framed fun r member newline => ?_
    obtain ⟨ev, he, rfl⟩ := List.mem_map.mp member
    exact ((own g hg ev he).printable _ newline).1 (by decide)
  rw [same, List.count_flatten, List.map_map, groupEvents, List.length_flatMap]
  refine congrArg List.sum (List.map_congr_left fun g hg => ?_)
  rw [Function.comp_apply, each g hg, List.length_map]

/-- The last lines of any file, also of one without a newline. -/
theorem readLastLines_linesFrom {α : Type*} (decode : Bytes → α) (content : Bytes) {numLines : Int}
    (positive : 1 ≤ numLines) :
    readLastLines decode (some content) numLines =
      (linesFrom decode content).rtake numLines.toNat := by
  by_cases newline : byte '\n' ∈ content
  · rw [readLastLines_eq newline positive, linesFrom, if_pos newline]
  · have none : ∀ k, linesFrom decode (content.drop k) = [] := fun k =>
      if_neg fun member => newline (List.mem_of_mem_drop member)
    have rounds : ∀ fuel blockEnd out, readBlocks decode content numLines fuel blockEnd
        (content.drop blockEnd) (linesFrom decode (content.drop blockEnd)) = some out →
          out = [] := by
      intro fuel
      induction fuel with
      | zero => exact fun _ _ ends => by cases ends
      | succ fuel ih =>
        intro blockEnd out ends
        by_cases more : 0 < blockEnd ∧
          ((linesFrom decode (content.drop blockEnd)).length : Int) ≤ numLines
        · rw [readBlocks_round more] at ends
          split_ifs at ends
          · exact (Option.some.inj ends).symm.trans (none _)
          · exact ih _ _ ends
        · rw [readBlocks, if_neg more] at ends
          exact (Option.some.inj ends).symm.trans (none _)
    have whole := none 0
    rw [List.drop_zero] at whole
    rw [whole, List.rtake_nil, readLastLines]
    split_ifs with empty
    · rfl
    · have ends := readBlocks_ends decode content numLines (Nat.lt_succ_self content.length) [] []
      obtain ⟨out, read⟩ := Option.isSome_iff_exists.mp ends
      have start := none content.length
      have fromEnd : readBlocks decode content numLines (content.length + 1) content.length
          (content.drop content.length) (linesFrom decode (content.drop content.length)) =
            some out := by
        rw [start, List.drop_length]
        exact read
      have lines := rounds (content.length + 1) content.length out fromEnd
      simp only [Option.get_of_eq_some _ read, lines, sliceFrom, List.drop_nil]

theorem filterMap_rtake {α β : Type*} (f : α → Option β) (l : List α) (n : Nat) :
    ∃ k, (l.rtake n).filterMap f = (l.filterMap f).rtake k ∧ k ≤ n ∧
      min n l.length + (l.filterMap f).length ≤ k + l.length := by
  have split : (l.take (l.length - n)).filterMap f ++ (l.rtake n).filterMap f = l.filterMap f := by
    rw [← List.filterMap_append, List.rtake, List.take_append_drop]
  have last := List.length_filterMap_le f (l.rtake n)
  have first := List.length_filterMap_le f (l.take (l.length - n))
  have lengths := congrArg List.length split
  rw [List.length_append] at lengths
  rw [List.rtake, List.length_drop] at last
  rw [List.length_take] at first
  refine ⟨((l.rtake n).filterMap f).length, ?_, ?_, ?_⟩
  · have whole : ∀ m : List β, m.rtake m.length = m := fun m => by
      rw [List.rtake, Nat.sub_self, List.drop_zero]
    rw [← split, Kit.Split.rtake_append _ (le_refl _), whole]
  · rw [List.rtake]
    omega
  · rw [List.rtake] at lengths ⊢
    omega

/-- The lines that are read at the end of a file, before they are decoded. -/
def lastLines (content : Bytes) (tail : Int) : List Bytes :=
  if byte '\n' ∈ content then (filled (byte '\n') content).rtake tail.toNat else []

theorem readLastLines_lastLines {α : Type*} (decode : Bytes → α) (content : Bytes) {tail : Int}
    (positive : 1 ≤ tail) :
    readLastLines decode (some content) tail = (lastLines content tail).map decode := by
  rw [readLastLines_linesFrom decode content positive, linesFrom, lastLines]
  split_ifs
  · rw [fileLines, List.rtake, List.rtake, List.length_map, ← List.map_drop]
  · rw [List.rtake_nil, List.map_nil]

/-- What is read of the last lines is what is read last of all, and little is missed there. -/
theorem lastLines_read {β : Type*} {f : Bytes → Option β} {all : List β} {content : Bytes}
    (read : (filled (byte '\n') content).filterMap f = all)
    (lines : content.count (byte '\n') ≤ (filled (byte '\n') content).length) (tail : Int) :
    ∃ n ≤ tail.toNat, (lastLines content tail).filterMap f = all.rtake n ∧
      min tail.toNat (content.count (byte '\n')) ≤ (lastLines content tail).length ∧
      (lastLines content tail).length + all.length ≤ n + (filled (byte '\n') content).length := by
  have few := List.length_filterMap_le f (filled (byte '\n') content)
  rw [read] at few
  unfold lastLines
  split_ifs with newline
  · obtain ⟨n, last, bound, enough⟩ := filterMap_rtake f (filled (byte '\n') content) tail.toNat
    have length : ((filled (byte '\n') content).rtake tail.toNat).length =
        min tail.toNat (filled (byte '\n') content).length := by
      rw [List.rtake, List.length_drop]
      omega
    rw [read] at last enough
    exact ⟨n, bound, last, by omega, by omega⟩
  · rw [List.count_eq_zero.mpr newline]
    exact ⟨0, Nat.zero_le _, by rw [List.rtake_zero]; rfl, by omega, by simpa using few⟩

theorem getEvents_eq (content : Bytes) {tail : Int} (positive : 1 ≤ tail) :
    getEvents decode loads (some content) tail =
      (lastLines content tail).filterMap (readLine decode loads) := by
  rw [getEvents, readLastLines_lastLines decode content positive, List.filterMap_map]
  rfl

end File

/-- Whatever groups of recordable events the receiver has written, wherever a call of `writev_all`
has stopped, `get_events` returns objects of events that were written, in their order and no others,
and the last of them: a line is missing for each group that has stopped, at most. -/
theorem events_of_record_file (decode : Bytes → PyStr) (loads : PyStr → Option Value)
    (text : ReadsAscii decode loads) (groups : List RecordGroup)
    (recordable : ∀ ev ∈ groupEvents groups, ev.Recordable) (content : Bytes)
    (file : eventsFile groups = some content) :
    ∃ served : List Event, served.Sublist (groupEvents groups) ∧
      content.count (byte '\n') ≤ served.length + groups.countP RecordGroup.stopped ∧
      (groups.countP RecordGroup.stopped = 0 → served = groupEvents groups) ∧
      ∀ tail : Int, 1 ≤ tail → ∃ n ≤ tail.toNat,
        min tail.toNat (content.count (byte '\n')) ≤ n + groups.countP RecordGroup.stopped ∧
        getEvents decode loads (some content) tail = (served.rtake n).map Event.object := by
  obtain ⟨served, order, read, lines, missed, -⟩ := lines_of_eventsFile text recordable file
  refine ⟨served, order, lines.trans missed, fun whole => ?_, fun tail positive => ?_⟩
  · have all := count_of_eventsFile recordable file whole
    exact order.eq_of_length_le (by omega)
  · obtain ⟨n, few, last, shown, enough⟩ := lastLines_read read lines tail
    rw [List.length_map] at enough
    refine ⟨n, few, by omega, ?_⟩
    rw [getEvents_eq content positive, last, List.rtake, List.rtake, List.length_map, List.map_drop]

/-- The decoding of ASCII texts. -/
def asciiDecode (s : Bytes) : PyStr := s.map UInt8.toNat

theorem readsAscii_ascii : ReadsAscii asciiDecode asciiLoads := by
  have loads : ∀ s : Bytes, asciiLoads (s.map UInt8.toNat) = Kit.Json.parse s := fun s => by
    simp [asciiLoads, Function.comp_def]
  exact ⟨fun _ _ => rfl, fun s v _ _ parsed => (loads s).trans parsed,
    fun s _ accepted => ⟨s, Replaces.refl s, loads s ▸ accepted⟩⟩

/-- Of the first group 200 bytes are written before an error, one line and a part of the next. -/
def tornGroups : List RecordGroup :=
  [⟨[plainEvent "AAPL", plainEvent "MSFT"], [.wrote 100, .interrupted, .wrote 100, .failed]⟩,
    ⟨[plainEvent "TSLA", plainEvent "NVDA"], [.wrote 248]⟩]

theorem recordable_tornGroups : ∀ ev ∈ groupEvents tornGroups, ev.Recordable := by
  have received : ∀ symbol ∈ ["AAPL", "MSFT", "TSLA", "NVDA"],
      receiveEvent stod (bytes "1|1000|" ++ bytes symbol ++ bytes "|100|7") 1005
        ⟨(127, 0, 0, 1), 40000⟩ =
          some (plainEvent symbol) ∧ (recordText (plainEvent symbol)).length < 512 ∧
        ∀ c ∈ (plainEvent symbol).symbolStr, Plain c ∧ c < 128 := by
    decide +kernel
  have each : groupEvents tornGroups = ["AAPL", "MSFT", "TSLA", "NVDA"].map plainEvent := rfl
  rw [each]
  intro ev member
  obtain ⟨symbol, listed, rfl⟩ := List.mem_map.mp member
  obtain ⟨datagram, fits, plain⟩ := received symbol listed
  exact recordable_of_received datagram rfl fits plain

theorem events_of_record_file_torn :
    ∃ (content : Bytes) (served : List Event), eventsFile tornGroups = some content ∧
      served.Sublist (groupEvents tornGroups) ∧
      3 ≤ served.length + 1 ∧ ∃ n ≤ 2, 2 ≤ n + 1 ∧
        getEvents asciiDecode asciiLoads (some content) 2 = (served.rtake n).map Event.object := by
  have counts : (eventsFile tornGroups).map (fun content => content.count (byte '\n')) = some 3 ∧
      tornGroups.countP RecordGroup.stopped = 1 := by
    decide +kernel
  obtain ⟨content, file, lines⟩ := Option.map_eq_some_iff.mp counts.1
  obtain ⟨served, order, missed, -, last⟩ :=
    events_of_record_file asciiDecode asciiLoads readsAscii_ascii tornGroups
      recordable_tornGroups content
      file
  obtain ⟨n, few, enough, read⟩ := last 2 (by decide)
  rw [counts.2] at missed enough
  rw [lines] at missed enough
  exact ⟨content, served, file, order, missed, n, few, enough, read⟩

end EtradePipeline
