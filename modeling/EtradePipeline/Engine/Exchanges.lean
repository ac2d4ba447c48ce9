import EtradePipeline.Engine.Threads
import EtradePipeline.Gateway.Framing

/-! What the threads of the gateway keep apart, in every run of the engine.  Each thread takes the
lines of its own stream in order, whatever the others do.  Each call of `submit_order` belongs to
one line of one thread, which answers with what that call returned. -/

namespace EtradePipeline

open Kit.Transition
open Kit.Framing (cut cut_first cut_append)
open Kit.ListSet (flatMap_set_append)

def Handling.line : Handling → Option Bytes
  | .reading => none
  | .submitting line _ _ => some line

def Handling.call : Handling → Option Nat
  | .reading => none
  | .submitting _ _ call => some call

/-- The thread works for the call's own order. -/
def Handling.Owns (maxSize : Int64) (p : Pool) : Handling → Prop
  | .reading => True
  | .submitting line ord call =>
    requestOf maxSize line = some (.order ord) ∧ ∃ stage, p.submits[call]? = some ⟨ord, stage⟩

/-- The responses are those to the line: what its own call has returned when it made one. -/
def Exchange.Answers (maxSize : Int64) (p : Pool) (x : Exchange) : Prop :=
  match x.call with
  | none => AnsweredAlone maxSize x.line x.responses
  | some call => ∃ ord stage r, requestOf maxSize x.line = some (.order ord) ∧
      p.submits[call]? = some ⟨ord, stage⟩ ∧ stage.result = some r ∧
        x.responses = orderAnswers ord r

namespace Handler

/-- The lines that the thread has taken. -/
def taken (h : Handler) : List Bytes := h.answered.map Exchange.line ++ h.handling.line.toList

/-- The calls of `submit_order` that the thread has made. -/
def calls (h : Handler) : List Nat := h.answered.filterMap Exchange.call ++ h.handling.call.toList

/-- The buffer is the stream behind whole segments, and these gave the lines taken. -/
def Framed (h : Handler) : Prop :=
  ∃ before, h.received = before ++ h.readbuf ∧ (cut (byte '\n') before).2 = [] ∧
    h.taken = lines before

end Handler

/-! ### Lines -/

section Lines

variable {h : Handler} {line readbuf before rest : Bytes}

theorem lines_append (whole : (cut (byte '\n') before).2 = []) :
    lines (before ++ rest) = lines before ++ lines rest := by
  simp only [lines, cut_append before rest, whole, List.nil_append, List.map_append,
    List.filter_append]

theorem lines_segment {segment : Bytes} (free : byte '\n' ∉ segment) :
    lines (segment ++ [byte '\n']) = [trim (segment ++ [byte '\n'])].filter (· ≠ []) := by
  simp only [lines, cut_first free, cut, List.map_cons, List.map_nil]

theorem Handler.Framed.recv (framed : h.Framed) (chunk : Chunk) :
    { h with readbuf := h.readbuf ++ chunk.data, received := h.received ++ chunk.data }.Framed := by
  obtain ⟨before, received, whole, taken⟩ := framed
  exact ⟨before, by rw [received, List.append_assoc], whole, taken⟩

/-- A thread that has taken a line, and has not lost it when it is not empty. -/
theorem Handler.Framed.take {h' : Handler} (framed : h.Framed)
    (next : Client.nextLine h.readbuf = some (line, readbuf)) (received : h'.received = h.received)
    (left : h'.readbuf = readbuf) (kept : h'.taken = h.taken ++ [line].filter (· ≠ [])) :
    h'.Framed := by
  obtain ⟨before, split, whole, taken⟩ := framed
  obtain ⟨segment, free, buffer, rfl⟩ := Client.nextLine_eq_some next
  refine ⟨before ++ (segment ++ [byte '\n']), ?_, ?_, ?_⟩
  · rw [received, left, split, buffer]
    simp
  · rw [cut_append, whole, List.nil_append, cut_first free]
    rfl
  · rw [kept, taken, lines_append whole, lines_segment free]

theorem Handler.Framed.advanced {ord : Order} {call : Nat} (framed : h.Framed)
    (busy : h.handling = .submitting line ord call) (stage : Stage) :
    (h.advanced line ord call stage).Framed := by
  cases stage with
  | returned fills =>
    obtain ⟨before, received, whole, taken⟩ := framed
    refine ⟨before, received, whole, ?_⟩
    rw [← taken]
    simp [Handler.taken, Handler.advanced, busy, Handling.line]
  | rejected | checked | inserted | matched | updated => exact framed

end Lines

/-! ### Calls -/

/-- The calls that have started stay, with their orders, and those that have ended keep their
result. -/
def Pool.Grows (p p' : Pool) : Prop :=
  ∀ (call : Nat) (ord : Order) (stage : Stage), p.submits[call]? = some ⟨ord, stage⟩ →
    ∃ stage', p'.submits[call]? = some ⟨ord, stage'⟩ ∧ (stage.result ≠ none → stage' = stage)

namespace Pool

variable {p p' : Pool} {maxSize : Int64}

theorem Grows.of_eq (same : p'.submits = p.submits) : p.Grows p' :=
  fun _ _ stage at_ => ⟨stage, same ▸ at_, fun _ => rfl⟩

theorem Grows.of_append {c : SubmitCall} (grown : p'.submits = p.submits ++ [c]) : p.Grows p' := by
  intro call ord stage at_
  refine ⟨stage, ?_, fun _ => rfl⟩
  rw [grown, List.getElem?_append_left (List.getElem?_eq_some_iff.mp at_).1]
  exact at_

/-- A section of a call moves that call on, which had not ended. -/
theorem advance_cases {call : Nat} (stepped : p.step (.advance call) = some p') :
    ∃ ord stage stage', p.submits[call]? = some ⟨ord, stage⟩ ∧ stage.result = none ∧
      p'.submits = p.submits.set call ⟨ord, stage'⟩ := by
  cases steps_of_step stepped with
  | inserted _ ord at_ => exact ⟨ord, _, _, at_, rfl, rfl⟩
  | matched _ ord at_ => exact ⟨ord, _, _, at_, rfl, rfl⟩
  | updated _ ord fills at_ => exact ⟨ord, _, _, at_, rfl, rfl⟩
  | returned _ ord fills at_ => exact ⟨ord, _, _, at_, rfl, rfl⟩

theorem Grows.of_advance {call : Nat} (stepped : p.step (.advance call) = some p') :
    p.Grows p' := by
  obtain ⟨ord, stage, stage', at_, unfinished, moved⟩ := advance_cases stepped
  intro k ord' stage₁ at₁
  rw [moved]
  by_cases same : call = k
  · subst same
    obtain ⟨rfl, rfl⟩ : ord = ord' ∧ stage = stage₁ := by simpa [at_] using at₁
    refine ⟨stage', ?_, fun ended => absurd unfinished ended⟩
    rw [List.getElem?_set_self (List.getElem?_eq_some_iff.mp at_).1]
  · exact ⟨stage₁, by rw [List.getElem?_set_ne same]; exact at₁, fun _ => rfl⟩

end Pool

section Calls

variable {maxSize : Int64} {p p' : Pool}

theorem Exchange.Answers.mono {x : Exchange} (answers : x.Answers maxSize p) (grows : p.Grows p') :
    x.Answers maxSize p' := by
  unfold Exchange.Answers at answers ⊢
  cases call : x.call with
  | none =>
    rw [call] at answers
    exact answers
  | some k =>
    rw [call] at answers
    obtain ⟨ord, stage, r, asked, at_, ended, responses⟩ := answers
    obtain ⟨stage', at', same⟩ := grows k ord stage at_
    obtain rfl := same (by simp [ended])
    exact ⟨ord, stage', r, asked, at', ended, responses⟩

theorem Handling.Owns.mono {handling : Handling} (owns : handling.Owns maxSize p)
    (grows : p.Grows p') :
    handling.Owns maxSize p' := by
  cases handling with
  | reading => trivial
  | submitting line ord call =>
    obtain ⟨asked, stage, at_⟩ := owns
    obtain ⟨stage', at', -⟩ := grows call ord stage at_
    exact ⟨asked, stage', at'⟩

theorem Handler.calls_advanced {h : Handler} {line : Bytes} {ord : Order} {call : Nat}
    (busy : h.handling = .submitting line ord call) (stage : Stage) :
    (h.advanced line ord call stage).calls = h.calls := by
  cases stage with
  | returned fills => simp [Handler.calls, Handler.advanced, busy, Handling.call]
  | rejected | checked | inserted | matched | updated => rfl

end Calls

namespace Engine

variable {toDouble : Bytes → Option Double} {maxSize : Int64} {b : UInt64} {e e' : Engine}

theorem grows_of_step {a : EngineStep b} (stepped : e.step toDouble maxSize a = some e') :
    e.pool.Grows e'.pool := by
  cases steps_of_step stepped with
  | fed | accepted | received | skipped => exact .of_eq rfl
  | answered i h line readbuf responses pool at_ reading next nonempty alone submits =>
    exact .of_eq submits
  | rejected i h line readbuf reason ord pool at_ reading next nonempty asked submits =>
    exact .of_append submits
  | checked i h line readbuf ord pool at_ reading next nonempty asked submits =>
    exact .of_append submits
  | advanced i h line ord call pool moved at_ busy ran => exact .of_advance ran

/-- A property of the threads, in the pool as it is, that every step keeps for the thread that moves
and that only needs the calls to stay. -/
theorem handlers_set {P : Pool → Handler → Prop} {i : Nat} {h : Handler}
    (mono : ∀ h, P e.pool h → P e'.pool h) (all : ∀ h ∈ e.handlers, P e.pool h)
    (moved : e'.handlers = e.handlers.set i h) (own : P e'.pool h) :
    ∀ h ∈ e'.handlers, P e'.pool h := by
  intro h' member
  rw [moved] at member
  rcases List.mem_or_eq_of_mem_set member with old | rfl
  · exact mono h' (all h' old)
  · exact own

theorem framed_step {a : EngineStep b} (framed : ∀ h ∈ e.handlers, h.Framed)
    (stepped : e.step toDouble maxSize a = some e') : ∀ h ∈ e'.handlers, h.Framed := by
  have set : ∀ (i : Nat) (h : Handler), e'.handlers = e.handlers.set i h → h.Framed →
      ∀ h ∈ e'.handlers, h.Framed := fun i h moved own =>
    handlers_set (P := fun _ h => h.Framed) (fun _ => id) framed moved own
  cases steps_of_step stepped with
  | fed => exact framed
  | accepted =>
    refine List.forall_mem_append.mpr ⟨framed, List.forall_mem_singleton.mpr ⟨[], rfl, rfl, rfl⟩⟩
  | received i h chunk at_ => exact set i _ rfl ((framed h (List.mem_of_getElem? at_)).recv chunk)
  | skipped i h readbuf at_ reading next =>
    refine set i _ rfl ((framed h (List.mem_of_getElem? at_)).take next rfl rfl ?_)
    exact (List.append_nil _).symm
  | answered i h line readbuf responses pool at_ reading next nonempty =>
    refine set i _ rfl ((framed h (List.mem_of_getElem? at_)).take next rfl rfl ?_)
    simp [Handler.taken, reading, Handling.line, nonempty]
  | rejected i h line readbuf reason ord pool at_ reading next nonempty =>
    refine set i _ rfl ((framed h (List.mem_of_getElem? at_)).take next rfl rfl ?_)
    simp [Handler.taken, reading, Handling.line, nonempty]
  | checked i h line readbuf ord pool at_ reading next nonempty =>
    refine set i _ rfl ((framed h (List.mem_of_getElem? at_)).take next rfl rfl ?_)
    simp [Handler.taken, reading, Handling.line, nonempty]
  | advanced i h line ord call pool moved at_ busy =>
    exact set i _ rfl ((framed h (List.mem_of_getElem? at_)).advanced busy moved.stage)

/-- A step starts at most one call, and then one thread has it. -/
theorem calls_step {a : EngineStep b}
    (calls : (e.handlers.flatMap Handler.calls).Perm (List.range e.pool.submits.length))
    (stepped : e.step toDouble maxSize a = some e') :
    (e'.handlers.flatMap Handler.calls).Perm (List.range e'.pool.submits.length) := by
  have same : ∀ (i : Nat) (h h' : Handler), e.handlers[i]? = some h → h'.calls = h.calls →
      ((e.handlers.set i h').flatMap Handler.calls).Perm (List.range e.pool.submits.length) := by
    intro i h h' at_ kept
    have moved := flatMap_set_append Handler.calls at_ (kept.trans (List.append_nil _).symm)
    rw [List.append_nil] at moved
    exact moved.trans calls
  have more : ∀ (i : Nat) (h h' : Handler), e.handlers[i]? = some h →
      h'.calls = h.calls ++ [e.pool.submits.length] →
      ((e.handlers.set i h').flatMap Handler.calls).Perm
        (List.range (e.pool.submits.length + 1)) := by
    intro i h h' at_ grown
    rw [List.range_succ]
    exact (flatMap_set_append Handler.calls at_ grown).trans (calls.append_right _)
  cases steps_of_step stepped with
  | fed => exact calls
  | accepted =>
    rw [List.flatMap_append]
    exact (List.append_nil _).symm ▸ calls
  | received i h chunk at_ => exact same i h _ at_ rfl
  | skipped i h readbuf at_ => exact same i h _ at_ rfl
  | answered i h line readbuf responses pool at_ reading next nonempty alone submits =>
    show (List.flatMap Handler.calls _).Perm (List.range pool.submits.length)
    rw [submits]
    exact same i h _ at_ (by simp [Handler.calls])
  | rejected i h line readbuf reason ord pool at_ reading next nonempty asked submits =>
    show (List.flatMap Handler.calls _).Perm (List.range pool.submits.length)
    rw [submits, List.length_append]
    exact more i h _ at_ (by simp [Handler.calls, reading, Handling.call])
  | checked i h line readbuf ord pool at_ reading next nonempty asked submits =>
    show (List.flatMap Handler.calls _).Perm (List.range pool.submits.length)
    rw [submits, List.length_append]
    exact more i h _ at_ (by simp [Handler.calls, reading, Handling.call])
  | advanced i h line ord call pool moved at_ busy ran =>
    obtain ⟨_, _, _, -, -, submits⟩ := Pool.advance_cases ran
    show (List.flatMap Handler.calls _).Perm (List.range pool.submits.length)
    rw [submits, List.length_set]
    exact same i h _ at_ (Handler.calls_advanced busy moved.stage)

/-- What a thread has answered and what it is doing agree with the calls. -/
def Served (maxSize : Int64) (p : Pool) (h : Handler) : Prop :=
  (∀ x ∈ h.answered, x.Answers maxSize p) ∧ h.handling.Owns maxSize p

theorem Served.mono {p p' : Pool} (grows : p.Grows p') (h : Handler) (served : Served maxSize p h) :
    Served maxSize p' h :=
  ⟨fun x member => (served.1 x member).mono grows, served.2.mono grows⟩

theorem Served.append {p p' : Pool} {h h' : Handler} {x : Exchange} (served : Served maxSize p h)
    (grows : p.Grows p') (answers : x.Answers maxSize p')
    (answered : h'.answered = h.answered ++ [x])
    (reading : h'.handling = .reading) : Served maxSize p' h' := by
  refine ⟨?_, by rw [reading]; trivial⟩
  rw [answered]
  exact List.forall_mem_append.mpr ⟨(served.mono grows).1, List.forall_mem_singleton.mpr answers⟩

theorem Served.advanced {p p' : Pool} {h : Handler} {line : Bytes} {ord : Order} {call : Nat}
    {moved : SubmitCall} (served : Served maxSize p h)
    (busy : h.handling = .submitting line ord call)
    (ran : p.step (.advance call) = some p') (now : p'.submits[call]? = some moved) :
    Served maxSize p' (h.advanced line ord call moved.stage) := by
  have grows := Pool.Grows.of_advance ran
  have kept := Served.mono grows h served
  obtain ⟨owner, stage⟩ := moved
  cases stage with
  | returned fills =>
    have owns := kept.2
    rw [busy] at owns
    obtain ⟨asked, stage, at_⟩ := owns
    obtain ⟨rfl, rfl⟩ : owner = ord ∧ .returned fills = stage := by simpa [now] using at_
    have answers : Exchange.Answers maxSize p'
        ⟨line, some call, .ack owner.clid :: fills.map .fill⟩ :=
      ⟨owner, _, _, asked, now, rfl, rfl⟩
    exact served.append grows answers rfl rfl
  | rejected | checked | inserted | matched | updated => exact kept

theorem served_step {a : EngineStep b} (served : ∀ h ∈ e.handlers, Served maxSize e.pool h)
    (stepped : e.step toDouble maxSize a = some e') :
    ∀ h ∈ e'.handlers, Served maxSize e'.pool h := by
  have grows := grows_of_step stepped
  have set : ∀ (i : Nat) (h : Handler), e'.handlers = e.handlers.set i h →
      Served maxSize e'.pool h → ∀ h ∈ e'.handlers, Served maxSize e'.pool h :=
    fun i h => handlers_set (P := Served maxSize) (Served.mono grows) served
  cases steps_of_step stepped with
  | fed => exact fun h member => (served h member).mono grows
  | accepted =>
    exact List.forall_mem_append.mpr
      ⟨served, List.forall_mem_singleton.mpr ⟨List.forall_mem_nil _, trivial⟩⟩
  | received i h chunk at_ | skipped i h readbuf at_ =>
    exact set i _ rfl (served h (List.mem_of_getElem? at_))
  | answered i h line readbuf responses pool at_ reading next nonempty alone submits =>
    have answers : Exchange.Answers maxSize pool ⟨line, none, responses⟩ := alone
    exact set i _ rfl ((served h (List.mem_of_getElem? at_)).append grows answers rfl reading)
  | rejected i h line readbuf reason ord pool at_ reading next nonempty asked submits =>
    have answers : Exchange.Answers maxSize pool
        ⟨line, some e.pool.submits.length, [.ack ord.clid, .rej ord.clid reason]⟩ :=
      ⟨ord, .rejected reason, ⟨false, reason, []⟩, asked, by simp [submits], rfl, rfl⟩
    exact set i _ rfl ((served h (List.mem_of_getElem? at_)).append grows answers rfl reading)
  | checked i h line readbuf ord pool at_ reading next nonempty asked submits =>
    refine set i _ rfl ⟨((served h (List.mem_of_getElem? at_)).mono grows).1, asked, .checked, ?_⟩
    show pool.submits[e.pool.submits.length]? = _
    simp [submits]
  | advanced i h line ord call pool moved at_ busy ran now =>
    exact set i _ rfl ((served h (List.mem_of_getElem? at_)).advanced busy ran now)

/-! ### Runs -/

/-- What a step brings to the thread of a connection. -/
def dataFor (i : Nat) : EngineStep b → Bytes
  | .recv j chunk => if j = i then chunk.data else []
  | .feed _ | .accept | .take _ | .advance _ => []

/-- What a thread has received. -/
def receivedBy (e : Engine) (i : Nat) : Bytes := (e.handlers[i]?).elim [] Handler.received

theorem receivedBy_set {i : Nat} {h h' : Handler} (at_ : e.handlers[i]? = some h) (j : Nat) :
    ((e.handlers.set i h')[j]?).elim [] Handler.received =
      if i = j then h'.received else e.receivedBy j := by
  split_ifs with same
  · subst same
    rw [List.getElem?_set_self (List.getElem?_eq_some_iff.mp at_).1]
    rfl
  · rw [List.getElem?_set_ne same]
    rfl

theorem receivedBy_step {a : EngineStep b}
    (stepped : e.step toDouble maxSize a = some e') (j : Nat) :
    e'.receivedBy j = e.receivedBy j ++ dataFor j a := by
  have kept : ∀ (i : Nat) (h h' : Handler), e.handlers[i]? = some h → h'.received = h.received →
      ((e.handlers.set i h')[j]?).elim [] Handler.received = e.receivedBy j ++ [] := by
    intro i h h' at_ same
    rw [receivedBy_set at_, List.append_nil]
    split_ifs with own
    · rw [same, receivedBy, ← own, at_, Option.elim_some]
    · rfl
  cases steps_of_step stepped with
  | fed => exact (List.append_nil _).symm
  | accepted =>
    simp only [receivedBy, dataFor, List.append_nil]
    by_cases old : j < e.handlers.length
    · rw [List.getElem?_append_left old]
    · rw [List.getElem?_append_right (not_lt.mp old), List.getElem?_eq_none (not_lt.mp old)]
      cases j - e.handlers.length <;> rfl
  | received i h chunk at_ =>
    refine (receivedBy_set at_ j).trans ?_
    simp only [dataFor]
    split_ifs with own
    · rw [receivedBy, ← own, at_, Option.elim_some]
    · rw [List.append_nil]
  | skipped i h readbuf at_ => exact kept i h _ at_ rfl
  | answered i h line readbuf responses pool at_ => exact kept i h _ at_ rfl
  | rejected i h line readbuf reason ord pool at_ => exact kept i h _ at_ rfl
  | checked i h line readbuf ord pool at_ => exact kept i h _ at_ rfl
  | advanced i h line ord call pool moved at_ =>
    exact kept i h _ at_ (by cases moved.stage <;> rfl)

theorem receivedBy_run {steps : List (EngineStep b)}
    (ran : run (step toDouble maxSize) e steps = some e')
    (j : Nat) : e'.receivedBy j = e.receivedBy j ++ steps.flatMap (dataFor j) := by
  induction steps generalizing e with
  | nil =>
    cases ran
    exact (List.append_nil _).symm
  | cons a steps ih =>
    obtain ⟨mid, stepped, rest⟩ := run_cons_eq_some.mp ran
    rw [ih rest, receivedBy_step stepped, List.append_assoc, List.flatMap_cons]

section Reached

variable {queue : SpscQueue Event} {steps : List (EngineStep b)}
  (ran : run (step toDouble maxSize) (start maxSize queue b) steps = some e)

include ran

theorem framed_of_run : ∀ h ∈ e.handlers, h.Framed :=
  run_invariant' (I := fun e => ∀ h ∈ e.handlers, h.Framed)
    (fun _ _ _ framed stepped => framed_step framed stepped) (List.forall_mem_nil _) ran

theorem calls_of_run : (e.handlers.flatMap Handler.calls).Perm (List.range e.pool.submits.length) :=
  run_invariant' (I := fun e =>
    (e.handlers.flatMap Handler.calls).Perm (List.range e.pool.submits.length))
    (fun _ _ _ calls stepped => calls_step calls stepped) (.refl _) ran

theorem served_of_run : ∀ h ∈ e.handlers, Served maxSize e.pool h :=
  run_invariant' (I := fun e => ∀ h ∈ e.handlers, Served maxSize e.pool h)
    (fun _ _ _ served stepped => served_step served stepped) (List.forall_mem_nil _) ran

end Reached

end Engine

open Engine

/-- In every run of the engine, the lines that the thread of a connection has taken, and behind them
those that its buffer holds, are the lines of what its client has sent, whatever the feed and the
other clients do in between. -/
theorem engine_frames_each_client (toDouble : Bytes → Option Double) (maxSize : Int64)
    (queue : SpscQueue Event) (b : UInt64) (steps : List (EngineStep b)) (e : Engine)
    (ran : run (step toDouble maxSize) (start maxSize queue b) steps = some e) (i : Nat)
    (h : Handler) (at_ : e.handlers[i]? = some h) :
    lines (steps.flatMap (dataFor i)) = h.taken ++ lines h.readbuf := by
  obtain ⟨before, received, whole, taken⟩ := framed_of_run ran h (List.mem_of_getElem? at_)
  have stream : h.received = steps.flatMap (dataFor i) := by
    have brought := receivedBy_run ran i
    rwa [receivedBy, at_, Option.elim_some] at brought
  rw [← stream, received, taken, lines_append whole]

/-- In every run of the engine, each call of `submit_order` is that of one line of one connection,
and each line answered has the responses to its own request: for an order, those that its own call
has returned. -/
theorem engine_answers_each_line (toDouble : Bytes → Option Double) (maxSize : Int64)
    (queue : SpscQueue Event) (b : UInt64) (steps : List (EngineStep b)) (e : Engine)
    (ran : run (step toDouble maxSize) (start maxSize queue b) steps = some e) :
    (e.handlers.flatMap Handler.calls).Perm (List.range e.pool.submits.length) ∧
      ∀ h ∈ e.handlers, (∀ x ∈ h.answered, x.Answers maxSize e.pool) ∧
        h.handling.Owns maxSize e.pool :=
  ⟨calls_of_run ran, served_of_run ran⟩

/-- A chunk that starts with a byte. -/
def Chunk.of (c : UInt8) (cs : Bytes) : Chunk :=
  ⟨c :: cs.take 8191, List.cons_ne_nil _ _, by rw [List.length_cons, List.length_take]; omega⟩

/-- A quote, and two clients that order at once.  The first sends its line in two pieces. -/
def rivals : List (EngineStep 2) :=
  overloaded.map .feed ++
    [.accept, .accept, .recv 0 (.of (byte 'O') (bytes "RDER|a|BUY|AAPL|200|6")),
      .recv 1 (.of (byte 'O') (bytes "RDER|b|BUY|AAPL|200|70\nCANCEL|c\n")),
      .recv 0 (.of (byte '0') (bytes "\n")), .take 0, .take 1, .advance 0, .advance 1,
      .advance 1, .advance 0, .advance 0, .advance 1, .advance 0, .advance 1, .take 1]

/-- The run of the rivals on a queue of two slots, and what their threads send. -/
theorem rivals_run : ∃ q e, SpscQueue.new Event 64 2 = some q ∧
    run (step stod 1000) (start 1000 q 2) rivals = some e ∧
    e.handlers.map Handler.sent =
      [[.ack (bytes "a"), .fill ⟨bytes "a", 30, .finite (347 / 2)⟩],
        [.ack (bytes "b"), .fill ⟨bytes "b", 70, .finite (347 / 2)⟩,
          .rej (bytes "c") (bytes "not_found_or_filled")]] := by
  have runs : ∀ q ∈ SpscQueue.new Event 64 2,
      (run (step stod 1000) (start 1000 q 2) rivals).map (fun e => e.handlers.map Handler.sent) =
        some
        [[.ack (bytes "a"), .fill ⟨bytes "a", 30, .finite (347 / 2)⟩],
          [.ack (bytes "b"), .fill ⟨bytes "b", 70, .finite (347 / 2)⟩,
            .rej (bytes "c") (bytes "not_found_or_filled")]] := by
    decide +kernel
  obtain ⟨q, built, -⟩ := @SpscQueue.new_represents Event _ 64 (le_refl 64) 2 (by decide)
  obtain ⟨e, ran, sent⟩ := Option.map_eq_some_iff.mp (runs q built)
  exact ⟨q, e, built, ran, sent⟩

/-- The first of the rivals, whose line came in two pieces. -/
theorem engine_frames_each_client_rivals : ∃ q e h,
    run (step stod 1000) (start 1000 q 2) rivals = some e ∧ e.handlers[0]? = some h ∧
      h.taken ++ lines h.readbuf = [bytes "ORDER|a|BUY|AAPL|200|60"] := by
  obtain ⟨q, e, -, ran, sent⟩ := rivals_run
  have first := congrArg (fun l => l[0]?.isSome) sent
  simp only [List.getElem?_map, Option.isSome_map] at first
  obtain ⟨h, at_⟩ := Option.isSome_iff_exists.mp (first.trans rfl)
  refine ⟨q, e, h, ran, at_, ?_⟩
  exact (engine_frames_each_client stod 1000 q 2 rivals e ran 0 h at_).symm.trans
    (by decide +kernel)

theorem engine_answers_each_line_rivals : ∃ q e,
    run (step stod 1000) (start 1000 q 2) rivals = some e ∧
      (e.handlers.flatMap Handler.calls).Perm (List.range e.pool.submits.length) ∧
      ∀ h ∈ e.handlers, ∀ x ∈ h.answered, x.Answers 1000 e.pool := by
  obtain ⟨q, e, -, ran, -⟩ := rivals_run
  obtain ⟨calls, served⟩ := engine_answers_each_line stod 1000 q 2 rivals e ran
  exact ⟨q, e, ran, calls, fun h member => (served h member).1⟩

end EtradePipeline
