import EtradePipeline.Gateway.Answers
import EtradePipeline.Gateway.Framing
import EtradePipeline.Receiver.RecordText

/-! Whether a client can tell from a response which request it answers.  Responses come in the order
of the lines, and those to a line with an id have that id, but for the answers to a `CANCEL`: a
successful one is answered by `CAL` where the protocol has `CXL`, and without a manager a space is
put behind the id. -/

namespace EtradePipeline

open Kit.Transition (run run_cons_eq_some)
open Kit.Framing (cut cut_first)
open Kit.Getline (getlines_free mem_of_mem_getlines)
open Kit.Search (notMem_intercalate)

/-! ### The protocol as documented -/

/-- The fields of a response line. -/
inductive ResponseFields : List Bytes → Prop where
  | ack (id : Bytes) : ResponseFields [bytes "ACK", id]
  | rej (id reason : Bytes) : ResponseFields [bytes "REJ", id, reason]
  | fill (id : Bytes) (size : Int) (price : Double) :
      ResponseFields [bytes "FILL", id, printInt size, printPrice price]
  | cxl (id : Bytes) (size : Int) : ResponseFields [bytes "CXL", id, printInt size]

theorem ResponseFields.head?_ne {fields : List Bytes} (documented : ResponseFields fields) :
    fields.head? ≠ some (bytes "CAL") := by
  cases documented <;> exact fun same => absurd (Option.some.inj same) (by decide)

/-- The second field of a response line. -/
def idOf (line : Bytes) : Option Bytes := (line.splitOn (byte '|'))[1]?

/-- An `ORDER` or `CANCEL` line with enough fields, the first of which is the id. -/
def Names (line clid : Bytes) : Prop :=
  ∃ args, parts line = bytes "ORDER" :: clid :: args ∧ 4 ≤ args.length ∨
    parts line = bytes "CANCEL" :: clid :: args

namespace Response

/-- What is sent, without its newline. -/
def line (r : Response) : Bytes := r.text.dropLast

def fill? : Response → Option Fill
  | .fill f => some f
  | _ => none

@[simp] theorem fill?_ack (clid : Bytes) : (Response.ack clid).fill? = none := rfl
@[simp] theorem fill?_rej (clid reason : Bytes) : (Response.rej clid reason).fill? = none := rfl
@[simp] theorem fill?_fill (f : Fill) : (Response.fill f).fill? = some f := rfl

@[simp] theorem fill?_comp_fill : fill? ∘ Response.fill = some := rfl

end Response

namespace Backend

variable {maxSize : Int64} {maxOpen : UInt64}

/-- What is left of an order. -/
def remaining (b : Backend maxSize maxOpen) (clid : Bytes) : Int :=
  match b with
  | .inProcess mgr => ((mgr.manager.orders.lookup clid).map State.remaining).getD 0
  | .snapshots .. | .terminated _ => 0

/-- There is a manager, and it has no such order or has it filled or canceled, or the process has
ended. -/
def NothingToCancel (b : Backend maxSize maxOpen) (clid : Bytes) : Prop :=
  match b with
  | .inProcess mgr => (mgr.manager.orders.lookup clid).all (fun st => st.status.isTerminal) = true
  | .snapshots .. => False
  | .terminated _ => True

instance (b : Backend maxSize maxOpen) (clid : Bytes) : Decidable (b.NothingToCancel clid) :=
  match b with
  | .inProcess _ => inferInstanceAs (Decidable (_ = _))
  | .snapshots .. => inferInstanceAs (Decidable False)
  | .terminated _ => inferInstanceAs (Decidable True)

/-- The line is no `CANCEL` with an id, or one that finds nothing to cancel. -/
def CancelsNothing (b : Backend maxSize maxOpen) (line : Bytes) : Prop :=
  ∀ clid, requestOf maxSize line = some (.cancel clid) → b.NothingToCancel clid

instance (b : Backend maxSize maxOpen) (line : Bytes) : Decidable (b.CancelsNothing line) :=
  match asked : requestOf maxSize line with
  | some (.cancel clid) => decidable_of_iff (b.NothingToCancel clid) <| by
      simp [CancelsNothing, asked]
  | some (.order _) | some (.refuse ..) | none => isTrue fun clid same => by simp [asked] at same

/-- The responses to a line are as documented and have its id, the fills of an order add up to its
size at most, and a cancel is answered with what it takes from the order. -/
structure Correlates (b : Backend maxSize maxOpen) (line : Bytes) : Prop where
  lines : ∀ r ∈ (b.answer line).1, r.text = r.line ++ [byte '\n'] ∧ byte '\n' ∉ r.line
  documented : ∀ r ∈ (b.answer line).1, ResponseFields (r.line.splitOn (byte '|'))
  ids : ∀ clid, Names line clid → ∀ r ∈ (b.answer line).1, idOf r.line = some clid
  fills : ∀ ord, requestOf maxSize line = some (.order ord) →
    fillTotal ((b.answer line).1.filterMap Response.fill?) ≤ ord.size
  canceled : ∀ clid size, .cal clid size ∈ (b.answer line).1 →
    size = b.remaining clid - (b.answer line).2.remaining clid

end Backend

/-! ### What goes into a response -/

/-- A text without the marks of the protocol. -/
def Unmarked (s : Bytes) : Prop := byte '|' ∉ s ∧ byte '\n' ∉ s

instance (s : Bytes) : Decidable (Unmarked s) := inferInstanceAs (Decidable (_ ∧ _))

theorem unmarked_printInt (x : Int) : Unmarked (printInt x) :=
  ⟨notMem_printInt (by decide) x, notMem_printInt (by decide) x⟩

theorem unmarked_printPrice (price : Double) : Unmarked (printPrice price) :=
  ⟨notMem_printPrice (by decide) price, notMem_printPrice (by decide) price⟩

namespace Response

/-- The id in a response. -/
def id : Response → Bytes
  | .ack clid | .rej clid _ | .cal clid _ => clid
  | .fill f => f.clid

def fields : Response → List Bytes
  | .ack clid => [bytes "ACK", clid]
  | .rej clid reason => [bytes "REJ", clid, reason]
  | .fill f => [bytes "FILL", f.clid, printInt f.size, printPrice f.price]
  | .cal clid canceled => [bytes "CAL", clid, printInt canceled]

variable {r : Response}

theorem text_eq (r : Response) : r.text = [byte '|'].intercalate r.fields ++ [byte '\n'] := by
  cases r <;> simp [text, fields, bytes, byte, List.intercalate_cons_cons]

theorem line_eq (r : Response) : r.line = [byte '|'].intercalate r.fields := by
  rw [line, text_eq, List.dropLast_concat]

theorem text_line (r : Response) : r.text = r.line ++ [byte '\n'] := by rw [line_eq, text_eq]

theorem fields_ne_nil (r : Response) : r.fields ≠ [] := by cases r <;> exact List.cons_ne_nil _ _

theorem splitOn_line (unmarked : ∀ f ∈ r.fields, Unmarked f) :
    r.line.splitOn (byte '|') = r.fields := by
  rw [line_eq]
  exact List.splitOn_intercalate _ (fun f member => (unmarked f member).1) r.fields_ne_nil

theorem newline_notMem_line (unmarked : ∀ f ∈ r.fields, Unmarked f) : byte '\n' ∉ r.line := by
  rw [line_eq]
  exact notMem_intercalate (by decide) fun f member => (unmarked f member).2

theorem idOf_line (unmarked : ∀ f ∈ r.fields, Unmarked f) : idOf r.line = some r.id := by
  rw [idOf, splitOn_line unmarked]
  cases r <;> rfl

end Response

/-! ### What a request hands on to its responses -/

namespace Request

/-- The id in a request, empty when the line has not enough fields. -/
def id : Request → Bytes
  | .order ord => ord.clid
  | .cancel clid | .refuse clid _ _ => clid

/-- The texts that it hands on. -/
def texts : Request → List Bytes
  | .order ord => [ord.clid]
  | .cancel clid => [clid]
  | .refuse clid reason _ => [clid, reason]

end Request

variable {maxSize : Int64} {maxOpen : UInt64} {line clid : Bytes} {req : Request}

theorem orderRequest_spec (clid side sym price size : Bytes) (unmarked : Unmarked clid) :
    (orderRequest maxSize clid side sym price size).id = clid ∧
      ∀ x ∈ (orderRequest maxSize clid side sym price size).texts, Unmarked x := by
  simp only [orderRequest]
  split
  · exact ⟨rfl, List.forall_mem_cons.mpr ⟨unmarked, List.forall_mem_singleton.mpr (by decide)⟩⟩
  split
  · exact ⟨rfl, List.forall_mem_cons.mpr ⟨unmarked, List.forall_mem_singleton.mpr (by decide)⟩⟩
  · exact ⟨rfl, List.forall_mem_singleton.mpr unmarked⟩

theorem parts_unmarked (one : byte '\n' ∉ line) : ∀ part ∈ parts line, Unmarked part :=
  fun part member =>
    ⟨getlines_free part member, fun inside => one (mem_of_mem_getlines member inside)⟩

theorem requestOf_unmarked (one : byte '\n' ∉ line) (asked : requestOf maxSize line = some req) :
    ∀ x ∈ req.texts, Unmarked x := by
  have unmarked := parts_unmarked one
  obtain ⟨command, args, cut, rfl⟩ := requestOf_eq_some.mp asked
  rw [cut] at unmarked
  obtain ⟨-, unmarked⟩ := List.forall_mem_cons.mp unmarked
  unfold request
  split_ifs
  · split
    · exact (orderRequest_spec _ _ _ _ _ (unmarked _ List.mem_cons_self)).2
    · decide
  · split
    · exact List.forall_mem_singleton.mpr (unmarked _ List.mem_cons_self)
    · decide
  · decide

theorem requestOf_names (one : byte '\n' ∉ line) (named : Names line clid) :
    ∃ req, requestOf maxSize line = some req ∧ req.id = clid := by
  have unmarked := parts_unmarked one
  obtain ⟨args, ⟨cut, enough⟩ | cut⟩ := named
  · rw [cut] at unmarked
    have clidUnmarked := unmarked clid (by simp)
    match args with
    | side :: sym :: price :: size :: rest =>
      exact ⟨orderRequest maxSize clid side sym price size, requestOf_eq_some.mpr ⟨_, _, cut, rfl⟩,
        (orderRequest_spec _ _ _ _ _ clidUnmarked).1⟩
  · exact ⟨.cancel clid, requestOf_eq_some.mpr ⟨_, _, cut, rfl⟩, rfl⟩

theorem names_of_cancel (asked : requestOf maxSize line = some (.cancel clid)) :
    Names line clid := by
  obtain ⟨command, args, cut, asked⟩ := requestOf_eq_some.mp asked
  unfold request at asked
  split_ifs at asked with order cancel
  · split at asked
    · rcases orderRequest_cases maxSize _ _ _ _ _ with ⟨reason, refused⟩ | ⟨n, -, -, -, ordered⟩
      · rw [refused] at asked
        cases asked
      · rw [ordered] at asked
        cases asked
    · cases asked
  · split at asked
    · cases asked
      exact ⟨_, .inr (cancel ▸ cut)⟩
    · cases asked

/-! ### The answer to a line -/

/-- A response with that id, as documented. -/
def Response.Answers (id : Bytes) (r : Response) : Prop :=
  r.id = id ∧ ResponseFields r.fields ∧ ∀ f ∈ r.fields, Unmarked f

theorem answers_ack (unmarked : Unmarked clid) : (Response.ack clid).Answers clid := by
  refine ⟨rfl, .ack clid, ?_⟩
  simp only [Response.fields, List.forall_mem_cons]
  exact ⟨by decide, unmarked, List.forall_mem_nil _⟩

theorem answers_rej {reason : Bytes} (unmarked : Unmarked clid) (known : Unmarked reason) :
    (Response.rej clid reason).Answers clid := by
  refine ⟨rfl, .rej clid reason, ?_⟩
  simp only [Response.fields, List.forall_mem_cons]
  exact ⟨by decide, unmarked, known, List.forall_mem_nil _⟩

theorem answers_fill {f : Fill} (unmarked : Unmarked clid) (same : f.clid = clid) :
    (Response.fill f).Answers clid := by
  refine ⟨same, .fill f.clid f.size f.price, ?_⟩
  simp only [Response.fields, List.forall_mem_cons]
  exact ⟨by decide, same ▸ unmarked, unmarked_printInt _, unmarked_printPrice _,
    List.forall_mem_nil _⟩

theorem checkOrder_unmarked {m : OrderManager} {ord : Order} {reason : Bytes}
    (failed : m.checkOrder ord = some reason) : Unmarked reason := by
  unfold OrderManager.checkOrder at failed
  split_ifs at failed <;> cases failed <;> decide

namespace Backend

variable {b : Backend maxSize maxOpen}

theorem perform_answers (unmarked : ∀ x ∈ req.texts, Unmarked x)
    (nothing : ∀ clid, req = .cancel clid → b.NothingToCancel clid) :
    ∀ r ∈ (b.perform req).1, r.Answers req.id := by
  cases b with
  | terminated metrics => cases req <;> exact List.forall_mem_nil _
  | inProcess mgr =>
    cases req with
    | refuse clid reason counted =>
      obtain ⟨named, reasoned⟩ := List.forall_mem_cons.mp unmarked
      exact List.forall_mem_singleton.mpr
        (answers_rej named (List.forall_mem_singleton.mp reasoned))
    | order ord =>
      have named : Unmarked ord.clid := List.forall_mem_singleton.mp unmarked
      have acked := answers_ack named
      rcases mgr.manager.submitOrder_cases ord
        with ⟨reason, failed, result⟩ | ⟨ob, -, -, -, result, -⟩
      · simp only [Venue.perform, Shared.submit_eq, Shared.submit, orderAnswers, result]
        exact List.forall_mem_cons.mpr ⟨acked, List.forall_mem_singleton.mpr
          (answers_rej named (checkOrder_unmarked failed))⟩
      · simp only [Venue.perform, Shared.submit_eq, Shared.submit, orderAnswers, result]
        refine List.forall_mem_cons.mpr ⟨acked, List.forall_mem_map.mpr fun f filled => ?_⟩
        exact answers_fill named (ob.matchOrder_fill ord f filled).2
    | cancel clid =>
      have nothing := nothing clid rfl
      rcases mgr.manager.cancelOrder_cases clid with ⟨-, result⟩ | ⟨st, entry, live, -⟩
      · simp only [Venue.perform, Shared.cancel_eq, Shared.cancel, result]
        exact List.forall_mem_singleton.mpr
          (answers_rej (List.forall_mem_singleton.mp unmarked) (by decide))
      · rw [NothingToCancel, entry, Option.all_some, live] at nothing
        cases nothing
  | snapshots read metrics =>
    cases req with
    | refuse clid reason counted =>
      obtain ⟨named, reasoned⟩ := List.forall_mem_cons.mp unmarked
      exact List.forall_mem_singleton.mpr
        (answers_rej named (List.forall_mem_singleton.mp reasoned))
    | cancel clid => exact (nothing clid rfl).elim
    | order ord =>
      have named : Unmarked ord.clid := List.forall_mem_singleton.mp unmarked
      obtain ⟨filled, own, responses⟩ :=
        @Venue.fillAtSnapshot_responses (Shared maxSize maxOpen) read metrics ord
      simp only [Venue.perform, responses]
      refine List.forall_mem_cons.mpr ⟨answers_ack named, fun r member => ?_⟩
      obtain ⟨f, found, rfl⟩ := Option.map_eq_some_iff.mp (Option.mem_toList.mp member)
      exact answers_fill named (own f found).1

theorem perform_fills {ord : Order} (positive : 0 < ord.size) :
    fillTotal ((b.perform (.order ord)).1.filterMap Response.fill?) ≤ ord.size := by
  cases b with
  | terminated metrics => exact positive.le
  | inProcess mgr =>
    rcases mgr.manager.submitOrder_cases ord with ⟨reason, -, result⟩ | ⟨ob, -, -, -, result, -⟩
    · simp [Venue.perform, Shared.submit, orderAnswers, result, List.filterMap_cons, positive.le]
    · have total := ob.matchOrder_total ord
      rw [max_eq_left positive.le] at total
      simpa [Venue.perform, Shared.submit, orderAnswers, result, List.filterMap_cons] using total
  | snapshots read metrics =>
    obtain ⟨filled, own, responses⟩ :=
      @Venue.fillAtSnapshot_responses (Shared maxSize maxOpen) read metrics ord
    simp only [Venue.perform, responses]
    cases filled with
    | none => simp [List.filterMap_cons, positive.le]
    | some f => simp [List.filterMap_cons, (own f rfl).2]

theorem perform_canceled {size : Int} (member : .cal clid size ∈ (b.perform req).1) :
    size = b.remaining clid - remaining (b.perform req).2 clid := by
  cases b with
  | terminated metrics => cases req <;> cases member
  | snapshots read metrics =>
    cases req with
    | refuse id reason counted | cancel id => simp [Venue.perform] at member
    | order ord =>
      obtain ⟨filled, -, responses⟩ :=
        @Venue.fillAtSnapshot_responses (Shared maxSize maxOpen) read metrics ord
      simp only [Venue.perform, responses] at member
      cases filled <;> simp at member
  | inProcess mgr =>
    cases req with
    | refuse id reason counted => simp [Venue.perform] at member
    | order ord =>
      simp only [Venue.perform, orderAnswers] at member
      split at member <;> simp at member
    | cancel id =>
      rcases mgr.manager.cancelOrder_cases id
        with ⟨-, result⟩ | ⟨st, entry, -, removed, -, -, orders⟩
      · simp [Venue.perform, Shared.cancel, result] at member
      · simp only [Venue.perform, Shared.cancel_eq, Shared.cancel, removed, List.mem_singleton,
          Response.cal.injEq] at member
        obtain ⟨rfl, rfl⟩ := member
        simp [Venue.perform, Shared.cancel, removed, remaining, entry, orders]

theorem answer_answers (one : byte '\n' ∉ line)
    (nothing : b.CancelsNothing line) :
    ∀ r ∈ (b.answer line).1, ∃ req, requestOf maxSize line = some req ∧ r.Answers req.id := by
  cases asked : requestOf maxSize line with
  | none =>
    rw [b.answer_of_none asked]
    exact List.forall_mem_nil _
  | some req =>
    intro r sent
    have nothing : ∀ clid, req = .cancel clid → b.NothingToCancel clid :=
      fun clid same => nothing clid (same ▸ asked)
    rw [b.answer_of_some asked] at sent
    exact ⟨req, rfl, perform_answers (requestOf_unmarked one asked) nothing r sent⟩

theorem answer_fills {ord : Order} (asked : requestOf maxSize line = some (.order ord)) :
    fillTotal ((b.answer line).1.filterMap Response.fill?) ≤ ord.size := by
  rcases requestOf_cases (isOrderLine_of_order asked)
    with ⟨_, _, refused⟩ | ⟨ord', same, positive, -⟩
  · rw [asked] at refused
    cases refused
  · rw [asked] at same
    cases same
    rw [b.answer_of_some asked]
    exact perform_fills positive

theorem answer_canceled {size : Int} (member : .cal clid size ∈ (b.answer line).1) :
    size = b.remaining clid - (b.answer line).2.remaining clid := by
  cases asked : requestOf maxSize line with
  | none => simp [b.answer_of_none asked] at member
  | some req =>
    rw [b.answer_of_some asked] at member ⊢
    exact perform_canceled member

/-- A line is answered as documented exactly when it cancels nothing. -/
theorem correlates_iff (b : Backend maxSize maxOpen) (one : byte '\n' ∉ line) :
    b.Correlates line ↔ b.CancelsNothing line := by
  constructor
  · intro correlates clid asked
    have unmarked := List.forall_mem_singleton.mp (requestOf_unmarked one asked)
    have answered := b.answer_of_some asked
    cases b with
    | terminated metrics => trivial
    | snapshots read metrics =>
      let rejected : Response := .rej (clid ++ bytes " ") (bytes "no_order_manager")
      have named := correlates.ids clid (names_of_cancel asked) rejected
        (by simp [answered, Venue.perform, rejected])
      have spaced : Unmarked (clid ++ bytes " ") := by
        simpa [Unmarked, bytes, byte] using unmarked
      rw [Response.idOf_line (answers_rej spaced (by decide)).2.2] at named
      simp [Response.id, bytes] at named
    | inProcess mgr =>
      by_contra going
      rcases mgr.manager.cancelOrder_cases clid with ⟨nothing, -⟩ | ⟨st, -, -, removed, -⟩
      · exact going nothing
      · let done : Response := .cal clid st.remaining
        have printed := correlates.documented done
          (by simp [answered, Venue.perform, Shared.cancel, removed, done])
        have fieldsUnmarked : ∀ f ∈ done.fields, Unmarked f := by
          simp only [done, Response.fields, List.forall_mem_cons]
          exact ⟨by decide, unmarked, unmarked_printInt _, List.forall_mem_nil _⟩
        rw [Response.splitOn_line fieldsUnmarked] at printed
        exact printed.head?_ne rfl
  · intro nothing
    have answers := @answer_answers _ _ _ b one nothing
    refine ⟨fun r sent => ?_, fun r sent => ?_, fun clid named r sent => ?_, fun ord =>
      answer_fills,
      fun clid size => answer_canceled⟩
    all_goals obtain ⟨req, asked, same, documented, unmarked⟩ := answers r sent
    · exact ⟨r.text_line, Response.newline_notMem_line unmarked⟩
    · rwa [Response.splitOn_line unmarked]
    · obtain ⟨req', asked', named⟩ := @requestOf_names maxSize _ _ one named
      rw [asked] at asked'
      cases asked'
      rw [Response.idOf_line unmarked, same, named]

end Backend

/-! ### Runs -/

/-- The bytes that a run receives. -/
def received : List (ClientStep maxSize maxOpen) → Bytes
  | [] => []
  | .recv chunk :: steps => chunk.data ++ received steps
  | _ :: steps => received steps

namespace Client

/-- The line that a step answers, with the backend that it meets. -/
def exchange (c : Client maxSize maxOpen) :
    ClientStep maxSize maxOpen → Option (Backend maxSize maxOpen × Bytes)
  | .line => (nextLine c.readbuf).bind fun (line, _) =>
    if line = [] then none else some (c.backend, line)
  | _ => none

/-- The lines that a run answers. -/
def exchanges (c : Client maxSize maxOpen) :
    List (ClientStep maxSize maxOpen) → List (Backend maxSize maxOpen × Bytes)
  | [] => []
  | a :: steps => (c.exchange a).toList ++ ((c.step a).map fun c => c.exchanges steps).getD []

/-- The responses sent in a run are those to the lines of the stream, one line after another, and
each line is answered as documented. -/
structure Correlated (b : Backend maxSize maxOpen) (steps : List (ClientStep maxSize maxOpen))
    (c : Client maxSize maxOpen) : Prop where
  sent : c.sent = ((start b).exchanges steps).flatMap fun e => (e.1.answer e.2).1
  order : lines (received steps) = ((start b).exchanges steps).map Prod.snd ++ lines c.readbuf
  each : ∀ e ∈ (start b).exchanges steps, e.1.Correlates e.2

variable {c c' : Client maxSize maxOpen}

/-- A trimmed line has a newline only where the line has one before its end. -/
theorem newline_notMem_trim {segment : Bytes} (none : byte '\n' ∉ segment) :
    byte '\n' ∉ trim (segment ++ [byte '\n']) := by
  have ends : isLineEnd (byte '\n') = true := by decide
  unfold trim
  rw [List.dropWhile_append]
  split_ifs with all
  · simp [ends]
  · rw [List.reverse_append, List.reverse_singleton, List.singleton_append,
      List.dropWhile_cons_of_pos ends, List.mem_reverse]
    intro member
    have inner := (List.dropWhile_sublist _).subset member
    exact none ((List.dropWhile_sublist _).subset (List.mem_reverse.mp inner))

theorem answerLine_sent (line : Bytes) : (c.answerLine line).sent = c.sent ++
    (if line = [] then none else some (c.backend, line)).toList.flatMap fun e =>
      (e.1.answer e.2).1 := by
  unfold answerLine
  split_ifs
  · simp
  · simp [Client.sent]

/-- The step: the line that is answered is the first of those that the buffer holds. -/
theorem exchanges_step {a : ClientStep maxSize maxOpen} (stepped : c.step a = some c')
    (more : Bytes) :
    c'.sent = c.sent ++ (c.exchange a).toList.flatMap (fun e => (e.1.answer e.2).1) ∧
    lines (c.readbuf ++ (received [a] ++ more)) =
      (c.exchange a).toList.map Prod.snd ++ lines (c'.readbuf ++ more) ∧
    ∀ e ∈ c.exchange a, byte '\n' ∉ e.2 := by
  cases a with
  | recv chunk =>
    obtain ⟨-, appended⟩ := Option.ite_none_right_eq_some.mp stepped
    cases appended
    simp [exchange, received, append, Client.sent]
  | others now =>
    obtain ⟨-, made⟩ := Option.ite_none_right_eq_some.mp stepped
    cases made
    simp [exchange, received, Client.sent]
  | line =>
    obtain ⟨-, stepped⟩ := Option.ite_none_right_eq_some.mp stepped
    rw [takeLine] at stepped
    by_cases complete : byte '\n' ∈ c.readbuf
    · obtain ⟨segment, rest, split, none⟩ := List.eq_append_cons_of_mem complete
      rw [split, nextLine_first none, Option.map_some] at stepped
      cases stepped
      have met : c.exchange .line = if trim (segment ++ [byte '\n']) = [] then Option.none
          else some (c.backend, trim (segment ++ [byte '\n'])) := by
        rw [exchange, split, nextLine_first none, Option.bind_some]
      refine ⟨?_, ?_, ?_⟩
      · rw [answerLine_sent, met]
        rfl
      · have quiet : received [(.line : ClientStep maxSize maxOpen)] = [] := rfl
        rw [met, split, answerLine_readbuf, quiet, List.nil_append, List.append_assoc,
          List.cons_append, lines_first none]
        split_ifs with empty <;> simp [empty]
      · rw [met]
        split_ifs
        · simp
        · simpa using newline_notMem_trim none
    · rw [nextLine_of_notMem complete] at stepped
      cases stepped

theorem run_exchanges (steps : List (ClientStep maxSize maxOpen))
    (ran : run step c steps = some c') :
    c'.sent = c.sent ++ (c.exchanges steps).flatMap (fun e => (e.1.answer e.2).1) ∧
    lines (c.readbuf ++ received steps) = (c.exchanges steps).map Prod.snd ++ lines c'.readbuf ∧
    ∀ e ∈ c.exchanges steps, byte '\n' ∉ e.2 := by
  induction steps generalizing c with
  | nil =>
    cases ran
    simp [exchanges, received]
  | cons a steps ih =>
    obtain ⟨mid, stepped, rest⟩ := run_cons_eq_some.mp ran
    obtain ⟨sent, order, one⟩ := ih rest
    obtain ⟨first, cutOff, single⟩ := exchanges_step stepped (received steps)
    have split : received (a :: steps) = received [a] ++ received steps := by
      cases a <;> simp [received]
    have met : c.exchanges (a :: steps) = (c.exchange a).toList ++ mid.exchanges steps := by
      rw [exchanges, stepped, Option.map_some, Option.getD_some]
    rw [met, split]
    refine ⟨?_, ?_, ?_⟩
    · rw [sent, first, List.flatMap_append, List.append_assoc]
    · rw [cutOff, order, List.map_append, List.append_assoc]
    · intro e member
      rcases List.mem_append.mp member with now | later
      · exact single e (by simpa using now)
      · exact one e later

theorem cancelsNothing_of_correlated {b : Backend maxSize maxOpen}
    {steps : List (ClientStep maxSize maxOpen)}
    (ran : run step (start b) steps = some c) (correlated : Correlated b steps c) :
    ∀ e ∈ (start b).exchanges steps, e.1.CancelsNothing e.2 := by
  obtain ⟨-, -, one⟩ := run_exchanges steps ran
  exact fun e met => (e.1.correlates_iff (one e met)).mp (correlated.each e met)

end Client

/-- In every run of a client the responses come in the order of the lines, and each can be
correlated with its line exactly when no `CANCEL` with an id meets a gateway without a manager or an
order that is neither filled nor canceled. -/
theorem responses_correlate_iff (b : Backend maxSize maxOpen)
    (steps : List (ClientStep maxSize maxOpen))
    (c : Client maxSize maxOpen) (ran : run Client.step (Client.start b) steps = some c) :
    Client.Correlated b steps c ↔
      ∀ e ∈ (Client.start b).exchanges steps, e.1.CancelsNothing e.2 := by
  constructor
  · exact Client.cancelsNothing_of_correlated ran
  · intro nothing
    obtain ⟨sent, order, one⟩ := Client.run_exchanges steps ran
    exact ⟨sent, order, fun e met => (e.1.correlates_iff (one e met)).mpr (nothing e met)⟩

/-- An order, and a cancel of an id that is not known. -/
def orderAndNoSuchCancel : Chunk := ⟨bytes "ORDER|a|BUY|AAPL|1|5\nCANCEL|b\n", by decide, by decide⟩

theorem responses_correlate_iff_without_cancel :
    ∃ c, run Client.step (Client.start freshGateway)
    [.recv orderAndNoSuchCancel, .line, .line] = some c ∧
      Client.Correlated freshGateway [.recv orderAndNoSuchCancel, .line, .line] c := by
  have enabled : (run Client.step (Client.start freshGateway)
      [.recv orderAndNoSuchCancel, .line, .line]).isSome = true := by decide +kernel
  obtain ⟨c, ran⟩ := Option.isSome_iff_exists.mp enabled
  exact ⟨c, ran, (responses_correlate_iff freshGateway _ c ran).mpr (by decide +kernel)⟩

/-- An order that stays open, and its cancel. -/
def orderAndCancel : Chunk := ⟨bytes "ORDER|a|BUY|AAPL|1|5\nCANCEL|a\n", by decide, by decide⟩

def cancelOnly : Chunk := ⟨bytes "CANCEL|a\n", by decide, by decide⟩

/-- The cancel is answered by `CAL`, and without a manager the id is sent with a space behind it. -/
theorem cancel_not_correlated :
    (∃ c, run Client.step (Client.start freshGateway) [.recv orderAndCancel, .line, .line] =
        some c ∧ c.sent.map Response.text = [bytes "ACK|a\n", bytes "CAL|a|5\n"] ∧
      ¬ Client.Correlated freshGateway [.recv orderAndCancel, .line, .line] c) ∧
    ∃ c, run Client.step (Client.start bareBackend) [.recv cancelOnly, .line] = some c ∧
      c.sent.map Response.text = [bytes "REJ|a |no_order_manager\n"] ∧
      ¬ Client.Correlated bareBackend [.recv cancelOnly, .line] c := by
  have runs : (run Client.step (Client.start freshGateway) [.recv orderAndCancel, .line, .line]).map
        (fun c => c.sent.map Response.text) = some [bytes "ACK|a\n", bytes "CAL|a|5\n"] ∧
      (run Client.step (Client.start bareBackend) [.recv cancelOnly, .line]).map
        (fun c => c.sent.map Response.text) = some [bytes "REJ|a |no_order_manager\n"] := by
    decide +kernel
  obtain ⟨c, ran, sent⟩ := Option.map_eq_some_iff.mp runs.1
  obtain ⟨c', ran', sent'⟩ := Option.map_eq_some_iff.mp runs.2
  refine ⟨⟨c, ran, sent, fun correlated => ?_⟩, c', ran', sent', fun correlated => ?_⟩
  · have nothing := Client.cancelsNothing_of_correlated ran correlated
    exact absurd nothing (by decide +kernel)
  · have nothing := Client.cancelsNothing_of_correlated ran' correlated
    exact absurd nothing (by decide +kernel)

end EtradePipeline
