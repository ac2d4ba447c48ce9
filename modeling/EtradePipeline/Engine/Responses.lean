import EtradePipeline.Engine.Exchanges
import EtradePipeline.Gateway.Correlation
import EtradePipeline.Kit.TornLog

/-! What a client reads of the stream of responses that the engine sends it: the responses
themselves, each with the id of the line that it answers, at whatever moment and of whatever part of
the stream. -/

namespace EtradePipeline

open Kit.Framing (cut)
open Kit.TornLog (framed cut_of_prefix)
open Kit.Transition

/-- The fields of the lines that are whole in a part of the stream. -/
def readResponses (s : Bytes) : List (List Bytes) :=
  (cut (byte '\n') s).1.map fun line => line.dropLast.splitOn (byte '|')

theorem stream_eq (rs : List Response) :
    rs.flatMap Response.text = framed (byte '\n') (rs.map Response.line) := by
  rw [framed, List.flatMap_map]
  exact List.flatMap_congr fun r _ => r.text_line

theorem newline_notMem_responses {rs : List Response}
    (unmarked : ∀ r ∈ rs, ∀ f ∈ r.fields, Unmarked f) :
    ∀ line ∈ rs.map Response.line, byte '\n' ∉ line := by
  intro line member
  obtain ⟨r, listed, rfl⟩ := List.mem_map.mp member
  exact Response.newline_notMem_line (unmarked r listed)

theorem readResponses_of_part {rs : List Response} (unmarked : ∀ r ∈ rs, ∀ f ∈ r.fields, Unmarked f)
    {s : Bytes} (part : s <+: rs.flatMap Response.text) :
    readResponses s = (rs.take (s.count (byte '\n'))).map Response.fields := by
  rw [stream_eq] at part
  rw [readResponses, cut_of_prefix part (newline_notMem_responses unmarked), ← List.map_take,
    List.map_map, List.map_map]
  refine List.map_congr_left fun r member => ?_
  rw [Function.comp_apply, Function.comp_apply, List.dropLast_concat]
  exact Response.splitOn_line (unmarked r (List.mem_of_mem_take member))

/-! ### The calls -/

/-- The reason of a rejected call is one of the manager's, and the fills of a call have its id. -/
def SubmitCall.Known (c : SubmitCall) : Prop :=
  match c.stage with
  | .rejected reason => Unmarked reason
  | .matched fills | .updated fills | .returned fills => ∀ f ∈ fills, f.clid = c.ord.clid
  | .checked | .inserted => True

namespace Pool

variable {p p' : Pool} {a : Section}

theorem matchBook_clid (m : OrderManager) (ord : Order) :
    ∀ f ∈ (m.matchBook ord).1, f.clid = ord.clid := by
  unfold OrderManager.matchBook
  split
  · exact List.forall_mem_nil _
  · exact fun f member => (OrderBook.matchOrder_fill _ ord f member).2

theorem known_step (known : ∀ c ∈ p.submits, c.Known) (stepped : p.step a = some p') :
    ∀ c ∈ p'.submits, c.Known := by
  cases steps_of_step stepped with
  | rejected ord reason failed =>
    exact List.forall_mem_append.mpr
      ⟨known, List.forall_mem_singleton.mpr (checkOrder_unmarked failed)⟩
  | checked ord passed =>
    exact List.forall_mem_append.mpr ⟨known, List.forall_mem_singleton.mpr trivial⟩
  | inserted i ord at_ => exact fun c member =>
      (List.mem_or_eq_of_mem_set member).elim (known c) fun same => same ▸ trivial
  | matched i ord at_ => exact fun c member =>
      (List.mem_or_eq_of_mem_set member).elim (known c) fun same => same ▸ matchBook_clid _ ord
  | updated i ord fills at_ | returned i ord fills at_ =>
    have own := known _ (List.mem_of_getElem? at_)
    exact fun c member => (List.mem_or_eq_of_mem_set member).elim (known c) fun same => same ▸ own
  | refused | canceled | fed => exact known

end Pool

/-- What a thread does to the calls when it takes a line, a section of the manager does. -/
theorem Pool.submits_begin {p pool : Pool} {line : Bytes} {request : Option Request}
    {handling : Handling}
    {answers : List Exchange} (begun : p.begin line request = some (pool, handling, answers)) :
    pool.submits = p.submits ∨ ∃ a, p.step a = some pool := by
  cases request with
  | none =>
    cases begun
    exact .inl rfl
  | some request =>
    cases request with
    | refuse clid reason counted =>
      cases begun
      cases counted <;> exact .inl rfl
    | cancel clid =>
      simp only [Pool.begin, Option.bind_eq_bind, Option.bind_eq_some_iff] at begun
      obtain ⟨pool', stepped, begun⟩ := begun
      cases begun
      exact .inr ⟨_, stepped⟩
    | order ord =>
      simp only [Pool.begin, Option.bind_eq_bind, Option.bind_eq_some_iff] at begun
      obtain ⟨pool', stepped, begun⟩ := begun
      split at begun <;> cases begun <;> exact .inr ⟨_, stepped⟩

namespace Engine

variable {toDouble : Bytes → Option Double} {maxSize : Int64} {b : UInt64} {e e' : Engine}

/-- A step does nothing to the calls, or what a section of the manager does. -/
theorem pool_step {a : EngineStep b} (stepped : e.step toDouble maxSize a = some e') :
    e'.pool.submits = e.pool.submits ∨ ∃ s, e.pool.step s = some e'.pool := by
  cases a with
  | feed a =>
    obtain ⟨feed, -, rfl⟩ := Option.map_eq_some_iff.mp stepped
    exact .inl rfl
  | accept =>
    cases stepped
    exact .inl rfl
  | recv i chunk =>
    obtain ⟨h, -, stepped⟩ := Option.bind_eq_some_iff.mp stepped
    obtain ⟨h', -, rfl⟩ := Option.map_eq_some_iff.mp stepped
    exact .inl rfl
  | take i =>
    simp only [step, take, Option.bind_eq_bind, Option.bind_eq_some_iff] at stepped
    obtain ⟨h, -, stepped⟩ := stepped
    split at stepped
    · cases stepped
    obtain ⟨⟨line, readbuf⟩, -, stepped⟩ := Option.bind_eq_some_iff.mp stepped
    simp only at stepped
    split_ifs at stepped
    · cases stepped
      exact .inl rfl
    · obtain ⟨⟨pool, handling, answers⟩, begun, stepped⟩ := Option.bind_eq_some_iff.mp stepped
      cases stepped
      exact Pool.submits_begin begun
  | advance i =>
    simp only [step, advance, Option.bind_eq_bind, Option.bind_eq_some_iff] at stepped
    obtain ⟨h, -, stepped⟩ := stepped
    split at stepped
    · cases stepped
    · obtain ⟨pool, moved, stepped⟩ := Option.bind_eq_some_iff.mp stepped
      obtain ⟨c, -, stepped⟩ := Option.bind_eq_some_iff.mp stepped
      cases stepped
      exact .inr ⟨_, moved⟩

theorem known_engine {a : EngineStep b} (known : ∀ c ∈ e.pool.submits, c.Known)
    (stepped : e.step toDouble maxSize a = some e') : ∀ c ∈ e'.pool.submits, c.Known := by
  obtain same | ⟨s, moved⟩ := pool_step stepped
  · exact same ▸ known
  · exact Pool.known_step known moved

end Engine

/-! ### The responses -/

/-- The responses to a line have its id, and no marks but their own. -/
theorem response_of_answers {maxSize : Int64} {p : Pool} {x : Exchange}
    (known : ∀ c ∈ p.submits, c.Known) (answers : x.Answers maxSize p) (one : byte '\n' ∉ x.line) :
    ∀ r ∈ x.responses, (∀ f ∈ r.fields, Unmarked f) ∧ ∀ clid, Names x.line clid → r.id = clid := by
  have named : ∀ {req : Request}, requestOf maxSize x.line = some req → ∀ clid, Names x.line clid →
      req.id = clid := by
    intro req asked clid names
    obtain ⟨req', asked', same⟩ : ∃ req', requestOf maxSize x.line = some req' ∧ req'.id = clid :=
      requestOf_names one names
    cases asked.symm.trans asked'
    exact same
  have close : ∀ {req : Request} {r : Response}, requestOf maxSize x.line = some req →
    r.Answers req.id →
      (∀ f ∈ r.fields, Unmarked f) ∧ ∀ clid, Names x.line clid → r.id = clid :=
    fun asked answered =>
      ⟨answered.2.2, fun clid names => answered.1.trans (named asked clid names)⟩
  unfold Exchange.Answers at answers
  split at answers
  · unfold AnsweredAlone at answers
    split at answers
    · rw [answers]
      exact List.forall_mem_nil _
    · rename_i clid reason counted asked
      rw [answers]
      have texts := requestOf_unmarked one asked
      exact List.forall_mem_singleton.mpr
        (close asked (answers_rej (texts clid (by simp [Request.texts]))
        (texts reason (by simp [Request.texts]))))
    · rename_i clid asked
      have texts := requestOf_unmarked one asked clid (by simp [Request.texts])
      obtain ⟨n, same⟩ | same := answers
      · rw [same]
        refine List.forall_mem_singleton.mpr ⟨?_, named asked⟩
        simp only [Response.fields, List.forall_mem_cons]
        exact ⟨by decide, texts, unmarked_printInt n, List.forall_mem_nil _⟩
      · rw [same]
        exact List.forall_mem_singleton.mpr (close asked (answers_rej texts (by decide)))
    · exact answers.elim
  · obtain ⟨ord, stage, r, asked, at_, ended, same⟩ := answers
    have texts := requestOf_unmarked one asked ord.clid (by simp [Request.texts])
    have own := known _ (List.mem_of_getElem? at_)
    have ack := close asked (answers_ack texts)
    rw [same]
    cases stage with
    | rejected reason =>
      cases ended
      exact List.forall_mem_cons.mpr
        ⟨ack, List.forall_mem_singleton.mpr (close asked (answers_rej texts own))⟩
    | returned fills =>
      cases ended
      refine List.forall_mem_cons.mpr ⟨ack, fun response member => ?_⟩
      obtain ⟨f, listed, rfl⟩ := List.mem_map.mp member
      exact close asked (answers_fill texts (own f listed))
    | checked | inserted | matched | updated => cases ended

theorem newline_notMem_lines (stream : Bytes) : ∀ line ∈ lines stream, byte '\n' ∉ line := by
  intro line member
  obtain ⟨segment, cut, rfl⟩ := List.mem_map.mp (List.mem_of_mem_filter member)
  obtain ⟨text, free, rfl⟩ := Kit.Framing.segment_of_cut stream segment cut
  exact Client.newline_notMem_trim free

theorem Engine.known_of_run {toDouble : Bytes → Option Double} {maxSize : Int64}
    {queue : SpscQueue Event} {b : UInt64} {steps : List (EngineStep b)} {e : Engine}
    (ran : run (step toDouble maxSize) (start maxSize queue b) steps = some e) :
    ∀ c ∈ e.pool.submits, c.Known :=
  run_invariant' (I := fun e => ∀ c ∈ e.pool.submits, c.Known)
    (fun _ _ _ known stepped => known_engine known stepped) (List.forall_mem_nil _) ran

/-- What a run of the engine has sent: responses without marks but their own, and those to a line
with its id. -/
theorem Engine.responses_of_run {toDouble : Bytes → Option Double} {maxSize : Int64}
    {queue : SpscQueue Event} {b : UInt64} {steps : List (EngineStep b)} {e : Engine}
    (ran : run (step toDouble maxSize) (start maxSize queue b) steps = some e) {h : Handler}
    (member : h ∈ e.handlers) :
    (∀ r ∈ h.sent, ∀ f ∈ r.fields, Unmarked f) ∧
      ∀ x ∈ h.answered, ∀ r ∈ x.responses, (∀ f ∈ r.fields, Unmarked f) ∧
        ∀ clid, Names x.line clid → r.id = clid := by
  have served := served_of_run ran
  obtain ⟨before, -, -, taken⟩ := framed_of_run ran h member
  have one : ∀ line ∈ h.taken, byte '\n' ∉ line := taken ▸ newline_notMem_lines before
  obtain ⟨answered, busy⟩ := List.forall_mem_append.mp one
  have each := fun x (hx : x ∈ h.answered) =>
    response_of_answers (known_of_run ran) ((served h member).1 x hx)
      (answered x.line (List.mem_map_of_mem hx))
  refine ⟨List.forall_mem_append.mpr ⟨fun r hr => ?_, ?_⟩, each⟩
  · obtain ⟨x, hx, inside⟩ := List.mem_flatMap.mp hr
    exact (each x hx r inside).1
  · have owns := (served h member).2
    cases at_ : h.handling with
    | reading => exact List.forall_mem_nil _
    | submitting line ord call =>
      rw [at_] at owns busy
      have texts := requestOf_unmarked (busy line (List.mem_singleton_self line)) owns.1 ord.clid
        (by simp [Request.texts])
      exact List.forall_mem_singleton.mpr (answers_ack texts).2.2

open Engine

end EtradePipeline
