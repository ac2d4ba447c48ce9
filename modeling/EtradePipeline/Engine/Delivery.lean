import EtradePipeline.Engine.Effects
import EtradePipeline.Gateway.Correlation
import EtradePipeline.Kit.Sums
import Mathlib.Data.List.Flatten

/-! From the datagrams that the engine receives to the fills that its clients are sent.  What a run
trades is what its market trades, and this is backed by the events that the consumer has applied,
which are some of those that the datagrams made. -/

namespace EtradePipeline

open Kit.Transition

open Kit.Sums (sum_filterMap sum_le_of_subset)

/-- The fills that a line was answered with. -/
def Exchange.fills (x : Exchange) : List Fill := x.responses.filterMap Response.fill?

/-- The fills of a line are for the order that it is, at prices that events for the symbol have. -/
def Exchange.Quoted (maxSize : Int64) (events : List Event) (x : Exchange) : Prop :=
  match requestOf maxSize x.line with
  | some (.order ord) =>
    (∀ f ∈ x.fills, 0 < f.size ∧ f.clid = ord.clid ∧ QuotedAt events ord.symbol f.price) ∧
      fillTotal x.fills ≤ max ord.size 0 ∧ (ord.side = .sell → x.fills = [])
  | _ => x.fills = []

/-- The quantity of a symbol that the fills of a line trade. -/
def Exchange.tradedIn (maxSize : Int64) (symbol : Bytes) (x : Exchange) : Int :=
  match requestOf maxSize x.line with
  | some (.order ord) => if ord.symbol = symbol then fillTotal x.fills else 0
  | _ => 0

/-- The quantity of a symbol that the fills sent to all clients trade. -/
def Engine.tradedIn (maxSize : Int64) (e : Engine) (symbol : Bytes) : Int :=
  ((e.handlers.flatMap Handler.answered).map (Exchange.tradedIn maxSize symbol)).sum

/-! ### The feed's part of a run -/

namespace Pipeline

variable {toDouble : Bytes → Option Double} {b : UInt64} {p p' : Pipeline} {a : PipelineStep b}

/-- The feed on a book that nobody else works on. -/
def alone (p : Pipeline) : Pipeline :=
  { p with book := p.applied.foldl OrderBook.applyEvent .empty }

/-- Nothing but the book depends on the book. -/
theorem step_alone (ran : p.step toDouble a = some p') :
    p.alone.step toDouble a = some p'.alone := by
  cases a with
  | receive g =>
    simp only [step, receive, alone] at ran ⊢
    split at ran
    · split_ifs at ran with none built
      · cases ran
        simp [none]
      · cases ran
        simp [none, built]
      · obtain ⟨machine, pushed, rfl⟩ := Option.map_eq_some_iff.mp ran
        simp only [none, built, pushed]
        rfl
    · cases ran
  | push =>
    simp only [step, push, alone] at ran ⊢
    split at ran
    · obtain ⟨machine, pushed, rfl⟩ := Option.map_eq_some_iff.mp ran
      rw [pushed, Option.map_some]
      split <;> rfl
    · cases ran
  | count =>
    simp only [step, count, alone] at ran ⊢
    split at ran
    · cases ran
      rfl
    · cases ran
  | pop =>
    simp only [step] at ran ⊢
    split_ifs at ran with ready
    have free : p.alone.inHand = none := ready
    obtain ⟨machine, popped, rfl⟩ := Option.map_eq_some_iff.mp ran
    rw [if_pos free]
    show (p.machine.step .pop).map p.alone.moved = _
    rw [popped]
    rfl
  | consume =>
    simp only [step, consume, alone] at ran ⊢
    obtain ⟨machine, moved, rfl⟩ := Option.map_eq_some_iff.mp ran
    rw [moved, Option.map_some]
    split <;> rfl
  | apply =>
    simp only [step, apply, alone] at ran ⊢
    obtain ⟨ev, inHand, rfl⟩ := Option.map_eq_some_iff.mp ran
    rw [inHand, Option.map_some, List.foldl_append]
    rfl

/-- The events applied are some of those received, in the same order. -/
theorem Inv.applied_sublist {n : Nat} {book : OrderBook} (inv : p.Inv n book)
    {received : List (List Event)}
    (batches : p.batches = received.filter (· ≠ [])) : p.applied.Sublist received.flatten := by
  have order := (inv.accounted batches).order
  have first : p.applied.Sublist (p.pushes.flatMap PushRecord.taken) := by
    rw [← order, List.append_assoc]
    exact List.sublist_append_left _ _
  have pushed :
      (p.pushes.flatMap PushRecord.taken).Sublist (p.pushes.map PushRecord.items).flatten := by
    rw [← List.flatMap_def]
    induction p.pushes with
    | nil => exact .slnil
    | cons r pushes ih =>
      rw [List.flatMap_cons, List.flatMap_cons]
      exact (List.take_sublist _ _).append ih
  have all : (p.pushes.map PushRecord.items).flatten.Sublist received.flatten := by
    have whole : p.batches.flatten = received.flatten := by
      rw [batches, List.flatten_filter_ne_nil]
    rw [← whole, Pipeline.batches, List.flatten_append]
    exact List.sublist_append_left _ _
  exact first.trans (pushed.trans all)

end Pipeline

namespace Engine

variable {toDouble : Bytes → Option Double} {maxSize : Int64} {b : UInt64} {e e' : Engine}

/-- The steps of the feed among those of a run. -/
def feedSteps : List (EngineStep b) → List (PipelineStep b)
  | [] => []
  | .feed a :: steps => a :: feedSteps steps
  | _ :: steps => feedSteps steps

/-- The events of the datagrams that a run receives. -/
def receivedEvents (toDouble : Bytes → Option Double) (steps : List (EngineStep b)) : List Event :=
  ((receivedGroups (feedSteps steps)).map (Group.events toDouble)).flatten

theorem alone_of_step {a : EngineStep b} (other : ∀ feed, a ≠ .feed feed)
    (stepped : e.step toDouble maxSize a = some e') : e'.feed.alone = e.feed.alone := by
  cases steps_of_step stepped with
  | fed a => exact absurd rfl (other a)
  | accepted | received | skipped | answered | rejected | checked | advanced => rfl

theorem feed_run {steps : List (EngineStep b)}
    (ran : run (step toDouble maxSize) e steps = some e') :
    run (Pipeline.step toDouble) e.feed.alone (feedSteps steps) = some e'.feed.alone := by
  induction steps generalizing e with
  | nil =>
    cases ran
    rfl
  | cons a steps ih =>
    obtain ⟨mid, stepped, rest⟩ := run_cons_eq_some.mp ran
    cases a with
    | feed a =>
      obtain ⟨feed, moved, rfl⟩ := Option.map_eq_some_iff.mp stepped
      exact run_cons_eq_some.mpr ⟨_, Pipeline.step_alone moved, ih rest⟩
    | accept | recv | take | advance =>
      have same := alone_of_step (by simp) stepped
      exact same ▸ ih rest

/-- The events that the consumer of an engine has applied are some of those that it has received. -/
theorem applied_sublist {queue : SpscQueue Event} (holds : queue.Represents 0 [] [])
    {steps : List (EngineStep b)}
    (ran : run (step toDouble maxSize) (start maxSize queue b) steps = some e) :
    e.feed.applied.Sublist (receivedEvents toDouble steps) := by
  obtain ⟨inv, batches⟩ :=
    Pipeline.inv_run _ (Pipeline.inv_start holds) (fun batched => if_pos batched) (feed_run ran)
  exact inv.applied_sublist batches

/-! ### What the clients are sent -/

/-- The call that a line was answered from, where it has matched. -/
def dealCall (p : Pool) (x : Exchange) : Option Nat :=
  x.call.filter fun call => (p.deal? call).isSome

/-- The quantity of a symbol that a call has traded. -/
def dealIn (symbol : Bytes) (p : Pool) (call : Nat) : Int :=
  (p.deal? call).elim 0 fun d => if d.1.symbol = symbol then fillTotal d.2 else 0

theorem filterMap_fill? (fills : List Fill) :
    (fills.map Response.fill).filterMap Response.fill? = fills := by
  rw [List.filterMap_map]
  exact List.filterMap_some

/-- The fills of a line are those of its call. -/
theorem fills_of_answers {p : Pool} {x : Exchange} (answers : x.Answers maxSize p) :
    (dealCall p x = none ∧ x.fills = []) ∨
    ∃ call ord, dealCall p x = some call ∧ x.call = some call ∧
      requestOf maxSize x.line = some (.order ord) ∧ p.deal? call = some (ord, x.fills) := by
  obtain ⟨line, call, responses⟩ := x
  cases call with
  | none =>
    refine .inl ⟨rfl, ?_⟩
    simp only [Exchange.Answers, AnsweredAlone] at answers
    split at answers
    · simp [Exchange.fills, answers]
    · simp [Exchange.fills, answers]
    · rcases answers with ⟨n, rfl⟩ | rfl <;> rfl
    · exact answers.elim
  | some call =>
    obtain ⟨ord, stage, r, asked, at_, ended, rfl⟩ := answers
    have deal : p.deal? call = SubmitCall.deal? ⟨ord, stage⟩ := by
      rw [Pool.deal?, at_, Option.bind_some]
    cases stage <;> cases ended
    · refine .inl ⟨?_, rfl⟩
      simp [dealCall, deal, SubmitCall.deal?]
    · rename_i fills
      have sent : Exchange.fills ⟨line, some call, orderAnswers ord ⟨true, [], fills⟩⟩ = fills :=
        filterMap_fill? fills
      refine .inr ⟨call, ord, ?_, rfl, asked, ?_⟩
      · simp [dealCall, deal, SubmitCall.deal?]
      · rw [deal, sent]
        rfl

theorem tradedIn_of_answers {p : Pool} {x : Exchange} (answers : x.Answers maxSize p)
    (symbol : Bytes) :
    x.tradedIn maxSize symbol = (dealCall p x).elim 0 (dealIn symbol p) := by
  rcases fills_of_answers answers with ⟨none, fills⟩ | ⟨call, ord, some, -, asked, deal⟩
  · rw [none, Option.elim_none, Exchange.tradedIn, fills]
    split <;> simp
  · rw [some, Option.elim_some, dealIn, deal, Option.elim_some, Exchange.tradedIn, asked]

variable {effects : List Effect}

theorem Linear.mem_calls (linear : e.Linear effects) {h : Handler} (member : h ∈ e.handlers)
    {call : Nat} (own : call ∈ h.calls) (matched : (e.pool.deal? call).isSome = true) :
    call ∈ effects.filterMap Effect.call? := by
  obtain ⟨i, at_⟩ := List.mem_iff_getElem?.mp member
  have dealt : call ∈ effects.filterMap (Effect.callOf? i) := by
    rw [linear.program i, dealtBy_of_some at_]
    exact List.mem_filter.mpr ⟨own, matched⟩
  obtain ⟨effect, he, mine⟩ := List.mem_filterMap.mp dealt
  refine List.mem_filterMap.mpr ⟨effect, he, ?_⟩
  cases effect with
  | quote ev => cases mine
  | deal client k ord =>
    simp only [Effect.callOf?] at mine
    split_ifs at mine
    exact mine

/-- What a call that has matched has traded is in the market's record. -/
theorem Linear.mem_deals (linear : e.Linear effects) {call : Nat} {d : Order × List Fill}
    (member : call ∈ effects.filterMap Effect.call?) (deal : e.pool.deal? call = some d) :
    d ∈ (marketOf effects).deals := by
  have listed : e.pool.deal? call ∈ (marketOf effects).deals.reverse.map some := by
    rw [← linear.deals]
    exact List.mem_map_of_mem member
  rw [deal] at listed
  obtain ⟨d', hd, same⟩ := List.mem_map.mp listed
  exact Option.some.inj same ▸ List.mem_reverse.mp hd

/-- What the calls have traded is what the market has sold. -/
theorem Linear.sum_dealIn (linear : e.Linear effects) (symbol : Bytes) :
    ((effects.filterMap Effect.call?).map (dealIn symbol e.pool)).sum =
      sold symbol (marketOf effects).deals := by
  have amounts : (effects.filterMap Effect.call?).map (dealIn symbol e.pool) =
      ((marketOf effects).deals.map fun d => if d.1.symbol = symbol then fillTotal d.2
        else 0).reverse := by
    have each := congrArg (List.map fun d : Option (Order × List Fill) =>
      d.elim 0 fun d => if d.1.symbol = symbol then fillTotal d.2 else 0) linear.deals
    rw [List.map_map, List.map_map, List.map_reverse] at each
    exact each
  rw [amounts, List.sum_reverse]
  rfl

theorem mem_calls_of_answered {h : Handler} {x : Exchange} (member : x ∈ h.answered) {call : Nat}
    (own : x.call = some call) : call ∈ h.calls :=
  List.mem_append_left _ (List.mem_filterMap.mpr ⟨x, member, own⟩)

/-- The fills that the clients have been sent are no more than the market has sold. -/
theorem Linear.tradedIn_le (linear : e.Linear effects)
    (calls : (e.handlers.flatMap Handler.calls).Perm (List.range e.pool.submits.length))
    (served : ∀ h ∈ e.handlers, Served maxSize e.pool h)
    (backed : (marketOf effects).Backed) (symbol : Bytes) :
    e.tradedIn maxSize symbol ≤ sold symbol (marketOf effects).deals := by
  have answers : ∀ x ∈ e.handlers.flatMap Handler.answered, x.Answers maxSize e.pool := by
    intro x member
    obtain ⟨h, hh, hx⟩ := List.mem_flatMap.mp member
    exact (served h hh).1 x hx
  rw [Engine.tradedIn, sum_filterMap fun x member => tradedIn_of_answers (answers x member) symbol,
    ← linear.sum_dealIn symbol]
  refine sum_le_of_subset ?_ (fun call member => ?_) fun call member => ?_
  · have part : ((e.handlers.flatMap Handler.answered).filterMap (dealCall e.pool)).Sublist
        (e.handlers.flatMap Handler.calls) := by
      rw [List.filterMap_flatMap]
      refine List.Sublist.flatMap_right _ fun h _ => ?_
      have own : h.answered.filterMap (dealCall e.pool) =
          (h.answered.filterMap Exchange.call).filter fun call => (e.pool.deal? call).isSome :=
        List.filter_filterMap.symm
      rw [own]
      exact List.filter_sublist.trans (List.sublist_append_left _ _)
    exact ((calls.nodup_iff).mpr List.nodup_range).sublist part
  · obtain ⟨x, hx, own⟩ := List.mem_filterMap.mp member
    obtain ⟨h, hh, hx⟩ := List.mem_flatMap.mp hx
    obtain ⟨own, matched⟩ := Option.filter_eq_some_iff.mp own
    exact linear.mem_calls hh (mem_calls_of_answered hx own) matched
  · rw [dealIn]
    cases deal : e.pool.deal? call with
    | none => exact le_refl 0
    | some d =>
      rw [Option.elim_some]
      split_ifs
      · exact fillTotal_nonneg fun f hf =>
          ((backed.deals d (linear.mem_deals member deal)).1 f hf).1
      · exact le_refl 0

theorem Linear.quoted (linear : e.Linear effects) (backed : (marketOf effects).Backed)
    {received : List Event}
    (events : (marketOf effects).events ⊆ received) {h : Handler} (member : h ∈ e.handlers)
    (served : Served maxSize e.pool h) {x : Exchange} (answered : x ∈ h.answered) :
    x.Quoted maxSize received := by
  rcases fills_of_answers (served.1 x answered) with ⟨-, none⟩ | ⟨call, ord, -, own, asked, deal⟩
  · unfold Exchange.Quoted
    rw [none]
    split
    · exact ⟨List.forall_mem_nil _, le_max_right _ _, fun _ => rfl⟩
    · rfl
  · have matched : call ∈ effects.filterMap Effect.call? :=
      linear.mem_calls member (mem_calls_of_answered answered own)
        (by rw [deal, Option.isSome_some])
    have inMarket := linear.mem_deals matched deal
    obtain ⟨each, total, sells⟩ := backed.deals _ inMarket
    rw [Exchange.Quoted, asked]
    refine ⟨fun f hf => ⟨(each f hf).1, (each f hf).2, ?_⟩, total, sells⟩
    exact (backed.fills _ inMarket f hf).mono events

/-! ### From the feed to the clients -/

theorem events_marketOf (effects : List Effect) :
    (marketOf effects).events = (effects.filterMap Effect.event?).reverse := by
  induction effects using List.reverseRecOn with
  | nil => rfl
  | append_singleton effects effect ih =>
    rw [marketOf_append, List.filterMap_append, List.reverse_append, ← ih]
    cases effect <;> rfl

/-- What a run of the engine leaves. -/
theorem linear_of_run (queue : SpscQueue Event) {steps : List (EngineStep b)}
    (ran : run (step toDouble maxSize) (start maxSize queue b) steps = some e) :
    e.Linear (Engine.effects toDouble maxSize (start maxSize queue b) steps) ∧
      (e.handlers.flatMap Handler.calls).Perm (List.range e.pool.submits.length) ∧
      ∀ h ∈ e.handlers, Served maxSize e.pool h :=
  ⟨linear_run steps (linear_start queue b) (.refl _) (List.forall_mem_nil _) ran, calls_of_run ran,
    served_of_run ran⟩

/-- The events that have reached the market are some of those received. -/
theorem Linear.events_subperm {received : List Event} (linear : e.Linear effects)
    (sub : e.feed.applied.Sublist received) : (marketOf effects).events.Subperm received := by
  rw [events_marketOf, linear.events]
  exact (List.reverse_perm _).subperm.trans sub.subperm

theorem offered_le {events more : List Event} (sub : events.Subperm more) (symbol : Bytes) :
    offered symbol events ≤ offered symbol more := by
  obtain ⟨events', perm, sub⟩ := sub
  have same : offered symbol events = offered symbol events' := (perm.map _).sum_eq.symm
  rw [same]
  refine (sub.map _).sum_le_sum fun n member => ?_
  obtain ⟨ev, -, rfl⟩ := List.mem_map.mp member
  show 0 ≤ if ev.symbolStr = symbol then max ev.size 0 else 0
  split_ifs
  · exact le_max_right _ _
  · exact le_refl 0

theorem Backed.sold_le {m : Market} (backed : m.Backed) (symbol : Bytes) :
    sold symbol m.deals ≤ offered symbol m.events := by
  have total := backed.total symbol
  have held : 0 ≤ m.onOffer symbol := (backed.fed.positive.opposite symbol .buy).total_nonneg
  omega

end Engine

open Engine

/-- Every run of the engine is linear: its effects in the order in which they happen, made one after
another on an empty market, leave the same book, give each call that has matched the fills that it
has, and keep the order of each client's lines.  The events among them are events received, in the
order of the feed. -/
theorem engine_linearizes (toDouble : Bytes → Option Double) (maxSize : Int64)
    (queue : SpscQueue Event) (b : UInt64) (steps : List (EngineStep b)) (e : Engine)
    (ran : run (step toDouble maxSize) (start maxSize queue b) steps = some e) :
    let effects := effects toDouble maxSize (start maxSize queue b) steps
    e.Linear effects ∧ (queue.Represents 0 [] [] →
      (effects.filterMap Effect.event?).Sublist (receivedEvents toDouble steps)) := by
  obtain ⟨linear, -, -⟩ := linear_of_run queue ran
  refine ⟨linear, fun fresh => ?_⟩
  rw [linear.events]
  exact applied_sublist fresh ran

/-- The rivals' orders match in the order of their calls, and take what the one event offers. -/
theorem engine_linearizes_rivals : ∃ q e, run (step stod 1000) (start 1000 q 2) rivals = some e ∧
    let effects := effects stod 1000 (start 1000 q 2) rivals
    effects.filterMap (Effect.callOf? 0) = e.dealtBy 0 ∧ effects.length = 3 ∧
      (effects.filterMap Effect.event?).Sublist (receivedEvents stod rivals) := by
  obtain ⟨q, e, built, ran, -⟩ := rivals_run
  obtain ⟨_, fresh, -, holds⟩ := @SpscQueue.new_represents Event _ 64 (le_refl 64) 2 (by decide)
  cases fresh.symm.trans built
  obtain ⟨linear, received⟩ := engine_linearizes stod 1000 q 2 rivals e ran
  have counts : ∀ q ∈ SpscQueue.new Event 64 2,
      (effects stod 1000 (start 1000 q 2) rivals).length = 3 := by
    decide +kernel
  exact ⟨q, e, ran, linear.program 0, counts q built, received holds⟩

/-- In every run of the engine, what the fills sent to all clients trade in a symbol is no more than
the events of the datagrams received have put on offer for it. -/
theorem engine_never_oversells (toDouble : Bytes → Option Double) (maxSize : Int64) (fuel : Nat)
    (enough : 64 ≤ fuel) (requested : UInt64) (bound : requested.toNat ≤ 2 ^ 63) :
    ∃ q, SpscQueue.new Event fuel requested = some q ∧
      ∀ (b : UInt64) (steps : List (EngineStep b)) (e : Engine),
        run (step toDouble maxSize) (start maxSize q b) steps = some e → ∀ symbol,
          e.tradedIn maxSize symbol ≤ offered symbol (receivedEvents toDouble steps) := by
  obtain ⟨q, built, -, holds⟩ := SpscQueue.new_represents (T := Event) enough bound
  refine ⟨q, built, fun b steps e ran symbol => ?_⟩
  obtain ⟨linear, calls, served⟩ := linear_of_run q ran
  have backed :=
    Market.trades_backed ((effects toDouble maxSize (start maxSize q b) steps).map Effect.trade)
      Market.start_backed
  have events := linear.events_subperm (applied_sublist holds ran)
  calc e.tradedIn maxSize symbol
      ≤ sold symbol (marketOf _).deals := linear.tradedIn_le calls served backed symbol
    _ ≤ offered symbol (marketOf _).events := Backed.sold_le backed symbol
    _ ≤ offered symbol (receivedEvents toDouble steps) := offered_le events symbol

/-- Two quotes offer 150, of which one is dropped. -/
theorem engine_never_oversells_rivals : ∃ q e,
    run (step stod 1000) (start 1000 q 2) rivals = some e ∧
      e.tradedIn 1000 (bytes "AAPL") ≤ 150 ∧ e.tradedIn 1000 (bytes "AAPL") = 100 := by
  obtain ⟨q, built, sells⟩ := engine_never_oversells stod 1000 64 (le_refl 64) 2 (by decide)
  have traded : ∀ q ∈ SpscQueue.new Event 64 2,
      (run (step stod 1000) (start 1000 q 2) rivals).map (fun e => e.tradedIn 1000 (bytes "AAPL")) =
        some 100 := by
    decide +kernel
  obtain ⟨e, ran, all⟩ := Option.map_eq_some_iff.mp (traded q built)
  exact ⟨q, e, ran, (sells 2 rivals e ran (bytes "AAPL")).trans (by decide +kernel), all⟩

/-- In every run of the engine, each fill that a client is sent is for its own order and not empty,
at the price of an event of a datagram received for the symbol; the fills of an order are not more
than it asks for, and an order to sell and a line without an order get none. -/
theorem engine_fills_are_quoted (toDouble : Bytes → Option Double) (maxSize : Int64) (fuel : Nat)
    (enough : 64 ≤ fuel) (requested : UInt64) (bound : requested.toNat ≤ 2 ^ 63) :
    ∃ q, SpscQueue.new Event fuel requested = some q ∧
      ∀ (b : UInt64) (steps : List (EngineStep b)) (e : Engine),
        run (step toDouble maxSize) (start maxSize q b) steps = some e →
          ∀ h ∈ e.handlers, ∀ x ∈ h.answered, x.Quoted maxSize (receivedEvents toDouble steps) := by
  obtain ⟨q, built, -, holds⟩ := SpscQueue.new_represents (T := Event) enough bound
  refine ⟨q, built, fun b steps e ran h member x answered => ?_⟩
  obtain ⟨linear, -, served⟩ := linear_of_run q ran
  have backed :=
    Market.trades_backed ((effects toDouble maxSize (start maxSize q b) steps).map Effect.trade)
      Market.start_backed
  exact linear.quoted backed (linear.events_subperm (applied_sublist holds ran)).subset member
    (served h member) answered

theorem engine_fills_are_quoted_rivals : ∃ q e,
    run (step stod 1000) (start 1000 q 2) rivals = some e ∧
      (∀ h ∈ e.handlers, ∀ x ∈ h.answered, x.Quoted 1000 (receivedEvents stod rivals)) ∧
      (e.handlers.map fun h => h.answered.map fun x => fillTotal x.fills) = [[30], [70, 0]] := by
  obtain ⟨q, built, quoted⟩ := engine_fills_are_quoted stod 1000 64 (le_refl 64) 2 (by decide)
  have totals : ∀ q ∈ SpscQueue.new Event 64 2,
      (run (step stod 1000) (start 1000 q 2) rivals).map (fun e =>
        e.handlers.map fun h => h.answered.map fun x => fillTotal x.fills) =
          some [[30], [70, 0]] := by
    decide +kernel
  obtain ⟨e, ran, sizes⟩ := Option.map_eq_some_iff.mp (totals q built)
  exact ⟨q, e, ran, quoted 2 rivals e ran, sizes⟩

end EtradePipeline
