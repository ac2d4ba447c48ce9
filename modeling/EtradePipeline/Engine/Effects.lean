import EtradePipeline.Engine.Exchanges
import EtradePipeline.Feed.Backing

/-! The engine as one market.  A run takes effect at single points: where the consumer applies an
event, and where a call of `submit_order` matches its order.  The effects, one after another, make a
sequential run of the market with the same book and the same fills, in which the events have the
order of the feed and each client's orders the order in which it sent them. -/

namespace EtradePipeline

open Kit.Transition
open Kit.ListSet (notMem_of_nodup_flatMap)

/-- What a step does to the book. -/
inductive Effect where
  | quote (ev : Event)
  | deal (client call : Nat) (ord : Order)

namespace Effect

def trade : Effect → Trade
  | quote ev => .feed ev
  | deal _ _ ord => .order ord

def event? : Effect → Option Event
  | quote ev => some ev
  | deal .. => none

def call? : Effect → Option Nat
  | quote _ => none
  | deal _ call _ => some call

/-- The call, when it is one of the client's. -/
def callOf? (i : Nat) : Effect → Option Nat
  | quote _ => none
  | deal client call _ => if client = i then some call else none

end Effect

/-- What a call has traded, once it has matched. -/
def SubmitCall.deal? (c : SubmitCall) : Option (Order × List Fill) :=
  match c.stage with
  | .matched fills | .updated fills | .returned fills => some (c.ord, fills)
  | .rejected _ | .checked | .inserted => none

def Pool.deal? (p : Pool) (call : Nat) : Option (Order × List Fill) :=
  (p.submits[call]?).bind SubmitCall.deal?

/-- The calls of a thread that have matched, in the order of its lines. -/
def Handler.dealt (p : Pool) (h : Handler) : List Nat :=
  h.calls.filter fun call => (p.deal? call).isSome

/-- The market after effects. -/
def marketOf (effects : List Effect) : Market :=
  (effects.map Effect.trade).foldl Market.trade .start

theorem marketOf_append (effects more : List Effect) :
    marketOf (effects ++ more) = (more.map Effect.trade).foldl Market.trade (marketOf effects) := by
  rw [marketOf, List.map_append, List.foldl_append]
  rfl

namespace Engine

/-- The effect of a step. -/
def effect {b : UInt64} (e : Engine) : EngineStep b → Option Effect
  | .feed .apply => e.feed.inHand.map .quote
  | .advance i =>
    match (e.handlers[i]?).map Handler.handling with
    | some (.submitting _ ord call) =>
      match (e.pool.submits[call]?).map SubmitCall.stage with
      | some .inserted => some (.deal i call ord)
      | _ => none
    | _ => none
  | _ => none

/-- The effects of a run. -/
def effects {b : UInt64} (toDouble : Bytes → Option Double) (maxSize : Int64) :
    Engine → List (EngineStep b) → List Effect
  | _, [] => []
  | e, a :: as => (e.effect a).toList ++ ((e.step toDouble maxSize a).elim [] fun e' =>
      effects toDouble maxSize e' as)

end Engine

/-! ### Deals -/

namespace Pool

variable {p p' : Pool} {call k : Nat}

theorem deal?_of_submits (same : p'.submits = p.submits) : p'.deal? k = p.deal? k := by
  rw [deal?, deal?, same]

/-- A call that starts has no deal yet. -/
theorem deal?_of_append {c : SubmitCall} (grown : p'.submits = p.submits ++ [c])
    (none : c.deal? = none) :
    p'.deal? k = p.deal? k := by
  unfold deal?
  rw [grown]
  by_cases old : k < p.submits.length
  · rw [List.getElem?_append_left old]
  · rw [List.getElem?_append_right (not_lt.mp old), List.getElem?_eq_none (not_lt.mp old)]
    cases k - p.submits.length <;> simp [none]

theorem deal?_set {ord : Order} {stage stage' : Stage} (at_ : p.submits[call]? = some ⟨ord, stage⟩)
    (moved : p'.submits = p.submits.set call ⟨ord, stage'⟩) :
    p'.deal? k = if call = k then SubmitCall.deal? ⟨ord, stage'⟩ else p.deal? k := by
  unfold deal?
  rw [moved]
  split_ifs with same
  · rw [← same, List.getElem?_set_self (List.getElem?_eq_some_iff.mp at_).1]
    rfl
  · rw [List.getElem?_set_ne same]

/-- A section of a call matches its order, or leaves the book and the deals. -/
theorem advance_deals (ran : p.step (.advance call) = some p') :
    (∃ ord, p.submits[call]? = some ⟨ord, .inserted⟩ ∧ p'.manager = (p.manager.matchBook ord).2 ∧
      ∀ k, p'.deal? k = if call = k then some (ord, (p.manager.matchBook ord).1) else p.deal? k) ∨
    (p.submits[call]?).map SubmitCall.stage ≠ some .inserted ∧ p'.manager.ob = p.manager.ob ∧
      ∀ k, p'.deal? k = p.deal? k := by
  have kept : ∀ (ord : Order) (stage stage' : Stage), p.submits[call]? = some ⟨ord, stage⟩ →
      p'.submits = p.submits.set call ⟨ord, stage'⟩ →
      SubmitCall.deal? ⟨ord, stage'⟩ = SubmitCall.deal? ⟨ord, stage⟩ →
        ∀ k, p'.deal? k = p.deal? k := by
    intro ord stage stage' at_ moved same k
    rw [deal?_set at_ moved]
    split_ifs with own
    · rw [same, ← own, deal?, at_, Option.bind_some]
    · rfl
  cases steps_of_step ran with
  | inserted _ ord at_ => exact .inr ⟨by simp [at_], rfl, kept ord _ .inserted at_ rfl rfl⟩
  | matched _ ord at_ =>
    refine .inl ⟨ord, at_, rfl, fun k => ?_⟩
    exact @deal?_set _ _ _ k ord _ (.matched (p.manager.matchBook ord).1) at_ rfl
  | updated _ ord fills at_ =>
    exact .inr ⟨by simp [at_], rfl, kept ord _ (.updated fills) at_ rfl rfl⟩
  | returned _ ord fills at_ =>
    exact .inr ⟨by simp [at_], rfl, kept ord _ (.returned fills) at_ rfl rfl⟩

end Pool

theorem Handler.dealt_congr {p p' : Pool} {h : Handler}
    (same : ∀ k ∈ h.calls, p'.deal? k = p.deal? k) : h.dealt p' = h.dealt p :=
  List.filter_congr fun k member => by rw [same k member]

/-! ### The run -/

namespace Pipeline

/-- Only the call of `apply_event` touches the book. -/
theorem book_of_step {toDouble : Bytes → Option Double} {b : UInt64} {p p' : Pipeline}
    {a : PipelineStep b} (ran : p.step toDouble a = some p') :
    (∃ ev, a = .apply ∧ p.inHand = some ev ∧ p'.book = p.book.applyEvent ev ∧
        p'.applied = p.applied ++ [ev]) ∨
      a ≠ .apply ∧ p'.book = p.book ∧ p'.applied = p.applied := by
  cases a with
  | receive g =>
    refine .inr ⟨by simp, ?_⟩
    simp only [step, receive] at ran
    split at ran
    · split_ifs at ran
      · cases ran
        exact ⟨rfl, rfl⟩
      · cases ran
        exact ⟨rfl, rfl⟩
      · obtain ⟨machine, -, rfl⟩ := Option.map_eq_some_iff.mp ran
        exact ⟨rfl, rfl⟩
    · cases ran
  | push =>
    refine .inr ⟨by simp, ?_⟩
    simp only [step, push] at ran
    split at ran
    · obtain ⟨machine, -, rfl⟩ := Option.map_eq_some_iff.mp ran
      split <;> exact ⟨rfl, rfl⟩
    · cases ran
  | count =>
    refine .inr ⟨by simp, ?_⟩
    simp only [step, count] at ran
    split at ran
    · cases ran
      exact ⟨rfl, rfl⟩
    · cases ran
  | pop =>
    refine .inr ⟨by simp, ?_⟩
    simp only [step] at ran
    split_ifs at ran
    obtain ⟨machine, -, rfl⟩ := Option.map_eq_some_iff.mp ran
    exact ⟨rfl, rfl⟩
  | consume =>
    refine .inr ⟨by simp, ?_⟩
    simp only [step, consume] at ran
    obtain ⟨machine, -, rfl⟩ := Option.map_eq_some_iff.mp ran
    split <;> exact ⟨rfl, rfl⟩
  | apply =>
    obtain ⟨ev, inHand, rfl⟩ := Option.map_eq_some_iff.mp ran
    exact .inl ⟨ev, rfl, inHand, rfl, rfl⟩

end Pipeline

namespace Engine

/-- The calls of the thread of a connection that have matched, none where there is no such
thread. -/
def dealtBy (e : Engine) (i : Nat) : List Nat := (e.handlers[i]?).elim [] (Handler.dealt e.pool)

/-- The engine stands where the market does after the effects. -/
structure Linear (e : Engine) (effects : List Effect) : Prop where
  book : (marketOf effects).book = e.feed.book
  shared : e.pool.manager.ob = some e.feed.book
  events : effects.filterMap Effect.event? = e.feed.applied
  deals : (effects.filterMap Effect.call?).map e.pool.deal? =
    (marketOf effects).deals.reverse.map some
  program : ∀ i, effects.filterMap (Effect.callOf? i) = e.dealtBy i

variable {toDouble : Bytes → Option Double} {maxSize : Int64} {b : UInt64} {e e' : Engine}
  {effects : List Effect}

theorem linear_start (queue : SpscQueue Event) (b : UInt64) : (start maxSize queue b).Linear [] :=
  ⟨rfl, rfl, rfl, rfl, fun _ => rfl⟩

/-- A step without an effect. -/
theorem Linear.quiet (linear : e.Linear effects) (book : e'.feed.book = e.feed.book)
    (shared : e'.pool.manager.ob = some e.feed.book) (applied : e'.feed.applied = e.feed.applied)
    (deals : ∀ k, e'.pool.deal? k = e.pool.deal? k) (program : ∀ i, e'.dealtBy i = e.dealtBy i) :
    e'.Linear effects := by
  refine ⟨linear.book.trans book.symm, by rw [book, shared], linear.events.trans applied.symm, ?_,
    fun i => (linear.program i).trans (program i).symm⟩
  rw [← linear.deals]
  exact List.map_congr_left fun k _ => deals k

theorem dealtBy_of_some {i : Nat} {h : Handler} (at_ : e.handlers[i]? = some h) :
    e.dealtBy i = h.dealt e.pool := by
  rw [dealtBy, at_, Option.elim_some]

theorem dealtBy_set {i : Nat} {h h' : Handler} (at_ : e.handlers[i]? = some h)
    (handlers : e'.handlers = e.handlers.set i h') (j : Nat) :
    e'.dealtBy j = if i = j then h'.dealt e'.pool else (e.handlers[j]?).elim []
    (Handler.dealt e'.pool) := by
  rw [dealtBy, handlers]
  split_ifs with same
  · rw [← same, List.getElem?_set_self (List.getElem?_eq_some_iff.mp at_).1, Option.elim_some]
  · rw [List.getElem?_set_ne same]

/-- A thread that moves without matching. -/
theorem dealtBy_kept {i : Nat} {h h' : Handler} (at_ : e.handlers[i]? = some h)
    (handlers : e'.handlers = e.handlers.set i h') (deals : ∀ k, e'.pool.deal? k = e.pool.deal? k)
    (dealt : h'.dealt e'.pool = h.dealt e'.pool) (j : Nat) : e'.dealtBy j = e.dealtBy j := by
  have same : Handler.dealt e'.pool = Handler.dealt e.pool :=
    funext fun h => Handler.dealt_congr fun k _ => deals k
  rw [dealtBy_set at_ handlers, dealt, same]
  split_ifs with own
  · rw [← own, dealtBy_of_some at_]
  · rfl

theorem linear_feed (linear : e.Linear effects) {a : PipelineStep b} {feed : Pipeline}
    (ran : e.feed.step toDouble a = some feed) :
    (e.withFeed feed).Linear (effects ++ (e.effect (.feed a)).toList) := by
  rcases Pipeline.book_of_step ran with ⟨ev, rfl, inHand, book, applied⟩ | ⟨other, book, applied⟩
  · have point : e.effect (.feed .apply : EngineStep b) = some (.quote ev) := by
      simp [effect, inHand]
    rw [point, Option.toList_some]
    have trade : marketOf (effects ++ [.quote ev]) = (marketOf effects).trade (.feed ev) :=
      marketOf_append effects [.quote ev]
    refine ⟨?_, rfl, ?_, ?_, fun i => ?_⟩
    · rw [trade]
      show (marketOf effects).book.applyEvent ev = feed.book
      rw [linear.book, book]
    · rw [List.filterMap_append, linear.events]
      exact applied.symm
    · rw [trade, List.filterMap_append, List.map_append]
      exact (List.append_nil _).trans linear.deals
    · rw [List.filterMap_append]
      exact (List.append_nil _).trans (linear.program i)
  · have point : e.effect (.feed a) = none := by
      cases a with
      | apply => exact absurd rfl other
      | receive | push | count | pop | consume => rfl
    rw [point, Option.toList_none, List.append_nil]
    exact linear.quiet book (congrArg some book) applied (fun _ => rfl) fun _ => rfl

/-- A thread that takes a line starts a call at most. -/
theorem linear_take (linear : e.Linear effects) {i : Nat} {h h' : Handler} {pool : Pool}
    (at_ : e.handlers[i]? = some h) (ob : pool.manager.ob = e.pool.manager.ob)
    (deals : ∀ k, pool.deal? k = e.pool.deal? k) (dealt : h'.dealt pool = h.dealt pool) :
    ((e.withPool pool).withHandler i h').Linear effects := by
  have attached := ob.trans linear.shared
  have book : ((e.withPool pool).withHandler i h').feed.book = e.feed.book := by
    show pool.manager.ob.getD _ = _
    rw [attached, Option.getD_some]
  exact linear.quiet book attached rfl deals (dealtBy_kept at_ rfl deals dealt)

theorem linear_advance (linear : e.Linear effects)
    (calls : (e.handlers.flatMap Handler.calls).Perm (List.range e.pool.submits.length))
    {i : Nat} {h : Handler} {line : Bytes} {ord : Order} {call : Nat} {pool : Pool}
    {moved : SubmitCall}
    (at_ : e.handlers[i]? = some h) (busy : h.handling = .submitting line ord call)
    (owns : h.handling.Owns maxSize e.pool) (ran : e.pool.step (.advance call) = some pool) :
    ((e.withPool pool).withHandler i (h.advanced line ord call moved.stage)).Linear
      (effects ++ (e.effect (.advance i : EngineStep b)).toList) := by
  have held : (h.advanced line ord call moved.stage).dealt pool = h.dealt pool := by
    rw [Handler.dealt, Handler.dealt, Handler.calls_advanced busy]
  have handling : (e.handlers[i]?).map Handler.handling = some (.submitting line ord call) := by
    rw [at_, Option.map_some, busy]
  rcases Pool.advance_deals ran with ⟨owner, inserted, manager, deals⟩ | ⟨stage, ob, deals⟩
  · -- The call matches: it is the last effect so far, and the last call of its thread.
    rw [busy] at owns
    obtain ⟨-, _, own⟩ := owns
    obtain rfl : owner = ord := (SubmitCall.mk.inj (Option.some.inj (inserted.symm.trans own))).1
    have point : e.effect (.advance i : EngineStep b) = some (.deal i call owner) := by
      simp [effect, handling, inserted]
    rw [point, Option.toList_some]
    have trade : marketOf (effects ++ [.deal i call owner]) =
        (marketOf effects).trade (.order owner) :=
      marketOf_append effects [.deal i call owner]
    have matched : e.pool.manager.matchBook owner = ((e.feed.book.matchOrder owner).1,
        { e.pool.manager with ob := some (e.feed.book.matchOrder owner).2 }) := by
      rw [OrderManager.matchBook, linear.shared]
    have distinct := (calls.nodup_iff).mpr List.nodup_range
    have fresh : e.pool.deal? call = none := by
      rw [Pool.deal?, inserted]
      rfl
    have mine : h.calls = h.answered.filterMap Exchange.call ++ [call] := by
      rw [Handler.calls, busy]
      rfl
    have last : h.dealt pool = h.dealt e.pool ++ [call] := by
      have once : (h.answered.filterMap Exchange.call ++ [call]).Nodup :=
        mine ▸ (List.nodup_flatMap.mp distinct).1 h (List.mem_of_getElem? at_)
      have before : call ∉ h.answered.filterMap Exchange.call :=
        fun member => (List.nodup_append.mp once).2.2 call member call List.mem_cons_self rfl
      have same : (h.answered.filterMap Exchange.call).filter (fun k => (pool.deal? k).isSome) =
          (h.answered.filterMap Exchange.call).filter fun k => (e.pool.deal? k).isSome := by
        refine List.filter_congr fun k member => ?_
        have ne : call ≠ k := fun own => before (own ▸ member)
        rw [deals, if_neg ne]
      rw [Handler.dealt, Handler.dealt, mine, List.filter_append, List.filter_append, same]
      simp [deals, fresh]
    refine ⟨?_, ?_, ?_, ?_, fun j => ?_⟩
    · rw [trade]
      show ((marketOf effects).book.matchOrder owner).2 = pool.manager.ob.getD _
      rw [manager, matched, linear.book]
      rfl
    · show pool.manager.ob = some (pool.manager.ob.getD _)
      rw [manager, matched]
      rfl
    · rw [List.filterMap_append]
      exact (List.append_nil _).trans linear.events
    · have market : ((marketOf effects).trade (.order owner)).deals.reverse =
          (marketOf effects).deals.reverse ++ [(owner, (e.feed.book.matchOrder owner).1)] := by
        rw [← linear.book]
        exact List.reverse_cons
      have known : (effects.filterMap Effect.call?).map pool.deal? =
          (effects.filterMap Effect.call?).map e.pool.deal? := by
        refine List.map_congr_left fun k member => ?_
        have dealt : e.pool.deal? k ∈ (effects.filterMap Effect.call?).map e.pool.deal? :=
          List.mem_map_of_mem member
        rw [linear.deals] at dealt
        obtain ⟨d, -, some⟩ := List.mem_map.mp dealt
        rw [deals, if_neg]
        rintro rfl
        rw [fresh] at some
        cases some
      rw [trade, market, List.filterMap_append, List.map_append, List.map_append, ← linear.deals]
      show (effects.filterMap Effect.call?).map pool.deal? ++ [pool.deal? call] = _
      rw [known, deals, if_pos rfl, matched]
      rfl
    · rw [List.filterMap_append, linear.program j]
      refine Eq.trans ?_ (dealtBy_set at_ rfl j).symm
      by_cases own : i = j
      · rw [if_pos own, ← own, dealtBy_of_some at_]
        show _ ++ [Effect.deal i call owner].filterMap (Effect.callOf? i) = Handler.dealt pool _
        rw [held, last]
        simp [Effect.callOf?]
      · have quiet : [Effect.deal i call owner].filterMap (Effect.callOf? j) = [] := by
          simp [Effect.callOf?, own]
        rw [if_neg own, quiet, List.append_nil, dealtBy]
        cases at' : e.handlers[j]? with
        | none => rfl
        | some h' =>
          refine (Handler.dealt_congr fun k member => ?_).symm
          have elsewhere := notMem_of_nodup_flatMap distinct at_ at' own
            (mine ▸ List.mem_append_right _ List.mem_cons_self : call ∈ h.calls)
          have ne : call ≠ k := fun same => elsewhere (same ▸ member)
          exact (deals k).trans (if_neg ne)
  · have point : e.effect (.advance i : EngineStep b) = none := by simp [effect, handling]
    rw [point, Option.toList_none, List.append_nil]
    exact linear_take linear at_ ob deals held

theorem linear_step (linear : e.Linear effects)
    (calls : (e.handlers.flatMap Handler.calls).Perm (List.range e.pool.submits.length))
    (served : ∀ h ∈ e.handlers, Served maxSize e.pool h) {a : EngineStep b}
    (stepped : e.step toDouble maxSize a = some e') :
    e'.Linear (effects ++ (e.effect a).toList) := by
  have quiet : ∀ {e' : Engine}, e'.Linear effects → e'.Linear (effects ++ []) :=
    fun linear => (List.append_nil _).symm ▸ linear
  have unmatched : ∀ {pool : Pool} {h h' : Handler} {ord : Order} {stage : Stage},
      pool.submits = e.pool.submits ++ [⟨ord, stage⟩] → SubmitCall.deal? ⟨ord, stage⟩ = none →
      h'.calls = h.calls ++ [e.pool.submits.length] → h'.dealt pool = h.dealt pool := by
    intro pool h h' ord stage submits undealt calls
    have fresh : pool.deal? e.pool.submits.length = none := by simp [Pool.deal?, submits, undealt]
    simp [Handler.dealt, calls, fresh]
  cases steps_of_step stepped with
  | fed a feed ran => exact linear_feed linear ran
  | accepted =>
    refine quiet (linear.quiet rfl linear.shared rfl (fun _ => rfl) fun i => ?_)
    unfold dealtBy
    by_cases old : i < e.handlers.length
    · rw [List.getElem?_append_left old]
    · rw [List.getElem?_append_right (not_lt.mp old), List.getElem?_eq_none (not_lt.mp old)]
      cases i - e.handlers.length <;> rfl
  | received i h chunk at_ | skipped i h readbuf at_ =>
    exact quiet
      (linear.quiet rfl linear.shared rfl (fun _ => rfl) (dealtBy_kept at_ rfl (fun _ => rfl) rfl))
  | answered i h line readbuf responses pool at_ reading next nonempty alone submits ob =>
    refine quiet (linear_take linear at_ ob (fun _ => Pool.deal?_of_submits submits) ?_)
    simp [Handler.dealt, Handler.calls]
  | rejected i h line readbuf reason ord pool at_ reading next nonempty asked submits ob =>
    have deals : ∀ k, pool.deal? k = e.pool.deal? k := fun _ => Pool.deal?_of_append submits rfl
    exact quiet (linear_take linear at_ ob deals
      (unmatched submits rfl (by simp [Handler.calls, reading, Handling.call])))
  | checked i h line readbuf ord pool at_ reading next nonempty asked submits ob =>
    have deals : ∀ k, pool.deal? k = e.pool.deal? k := fun _ => Pool.deal?_of_append submits rfl
    exact quiet (linear_take linear at_ ob deals
      (unmatched submits rfl (by simp [Handler.calls, reading, Handling.call])))
  | advanced i h line ord call pool moved at_ busy ran now =>
    exact linear_advance linear calls at_ busy (served h (List.mem_of_getElem? at_)).2 ran

theorem linear_run (steps : List (EngineStep b)) (linear : e.Linear effects)
    (calls : (e.handlers.flatMap Handler.calls).Perm (List.range e.pool.submits.length))
    (served : ∀ h ∈ e.handlers, Served maxSize e.pool h)
    (ran : run (step toDouble maxSize) e steps = some e') :
    e'.Linear (effects ++ Engine.effects toDouble maxSize e steps) := by
  induction steps generalizing e effects with
  | nil =>
    cases ran
    exact (List.append_nil _).symm ▸ linear
  | cons a steps ih =>
    obtain ⟨mid, stepped, rest⟩ := run_cons_eq_some.mp ran
    have next := ih (linear_step linear calls served stepped) (calls_step calls stepped)
      (served_step served stepped) rest
    rw [Engine.effects, stepped, Option.elim_some, ← List.append_assoc]
    exact next

end Engine

end EtradePipeline
