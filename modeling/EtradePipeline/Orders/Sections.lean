import EtradePipeline.Orders.Calls
import EtradePipeline.Kit.ListSet
import EtradePipeline.Kit.Transition

/-! Calls of the order manager that interleave.  A pool is the manager that the client threads
share, with the calls of `submit_order` that have started and how far each has got.  A section is
what runs without interruption: one of the parts of `submit_order` under the mutex, a whole
`cancel_order`, or a feed event applied to the book. -/

namespace EtradePipeline

open Kit.Transition
open Kit.KeyedList (total total_nil total_cons total_eq_zero)

/-- How far a call of `submit_order` has got. -/
inductive Stage where
  | rejected (reason : Bytes)
  | checked
  | inserted
  | matched (fills : List Fill)
  | updated (fills : List Fill)
  | returned (fills : List Fill)
  deriving DecidableEq

structure SubmitCall where
  ord : Order
  stage : Stage
  deriving DecidableEq

/-- The shared manager, the calls of `submit_order` in the order in which they started, and the size
that each successful cancel has reported. -/
structure Pool where
  manager : OrderManager
  submits : List SubmitCall
  canceled : List (Bytes × Int)

/-- What runs without interruption.  `check` starts a call of `submit_order` and `advance` runs the
next section of the call with that number. -/
inductive Section where
  | check (ord : Order)
  | advance (call : Nat)
  | cancel (clid : Bytes)
  | feed (ev : Event)

/-- The section of `submit_order` that follows a stage: the manager after it, and the stage that it
ends in. -/
def OrderManager.nextSection (m : OrderManager) (ord : Order) :
    Stage → Option (OrderManager × Stage)
  | .checked => some (m.insertNew ord, .inserted)
  | .inserted => some ((m.matchBook ord).2, .matched (m.matchBook ord).1)
  | .matched fills => some (m.updateStatus ord.clid fills, .updated fills)
  | .updated fills => some (m.reportMetrics fills, .returned fills)
  | .rejected _ | .returned _ => none

/-- What a call of `submit_order` that has ended returns. -/
def Stage.result : Stage → Option SubmitResult
  | .rejected reason => some ⟨false, reason, []⟩
  | .returned fills => some ⟨true, [], fills⟩
  | .checked | .inserted | .matched _ | .updated _ => none

namespace Pool

def start (ob : Option OrderBook) (policy : RiskPolicy) : Pool := ⟨.start ob policy, [], []⟩

/-- The pool after a section, when there is such a section to run. -/
def step (p : Pool) : Section → Option Pool
  | .check ord =>
    match p.manager.checkOrder ord with
    | some reason =>
      some { p with
        manager := p.manager.countRejected
        submits := p.submits ++ [⟨ord, .rejected reason⟩] }
    | none => some { p with submits := p.submits ++ [⟨ord, .checked⟩] }
  | .advance i => do
    let call ← p.submits[i]?
    let (manager, stage) ← p.manager.nextSection call.ord call.stage
    some { p with manager, submits := p.submits.set i ⟨call.ord, stage⟩ }
  | .cancel clid =>
    let (result, manager) := p.manager.cancelOrder clid
    some { p with
      manager
      canceled := match result with
        | some size => (clid, size) :: p.canceled
        | none => p.canceled }
  | .feed ev => some { p with manager := p.manager.feed ev }

/-- The ids of the submissions that have started. -/
def ids (p : Pool) : List Bytes := p.submits.map fun c => c.ord.clid

def entry (p : Pool) (id : Bytes) : Option State := p.manager.orders.lookup id

/-- The quantity that the successful cancels of an id have reported. -/
def canceledSize (p : Pool) (id : Bytes) : Int := total p.canceled id

/-- What a section can do, one constructor for each outcome. -/
inductive Steps (p : Pool) : Section → Pool → Prop
  | rejected (ord : Order) (reason : Bytes) (checked : p.manager.checkOrder ord = some reason) :
      Steps p (.check ord) { p with
        manager := p.manager.countRejected
        submits := p.submits ++ [⟨ord, .rejected reason⟩] }
  | checked (ord : Order) (checked : p.manager.checkOrder ord = none) :
      Steps p (.check ord) { p with submits := p.submits ++ [⟨ord, .checked⟩] }
  | inserted (i : Nat) (ord : Order) (at_ : p.submits[i]? = some ⟨ord, .checked⟩) :
      Steps p (.advance i) { p with
        manager := p.manager.insertNew ord
        submits := p.submits.set i ⟨ord, .inserted⟩ }
  | matched (i : Nat) (ord : Order) (at_ : p.submits[i]? = some ⟨ord, .inserted⟩) :
      Steps p (.advance i) { p with
        manager := (p.manager.matchBook ord).2
        submits := p.submits.set i ⟨ord, .matched (p.manager.matchBook ord).1⟩ }
  | updated (i : Nat) (ord : Order) (fills : List Fill)
      (at_ : p.submits[i]? = some ⟨ord, .matched fills⟩) :
      Steps p (.advance i) { p with
        manager := p.manager.updateStatus ord.clid fills
        submits := p.submits.set i ⟨ord, .updated fills⟩ }
  | returned (i : Nat) (ord : Order) (fills : List Fill)
      (at_ : p.submits[i]? = some ⟨ord, .updated fills⟩) :
      Steps p (.advance i) { p with
        manager := p.manager.reportMetrics fills
        submits := p.submits.set i ⟨ord, .returned fills⟩ }
  | refused (clid : Bytes)
      (ended : (p.entry clid).all (fun st => st.status.isTerminal) = true) :
      Steps p (.cancel clid) p
  | canceled (clid : Bytes) (st : State) (found : p.entry clid = some st)
      (live : st.status.isTerminal = false) (manager : OrderManager)
      (ob : manager.ob = p.manager.ob) (policy : manager.policy = p.manager.policy)
      (orders : manager.orders =
        p.manager.orders.insert clid { st with remaining := 0, status := .CANCELED }) :
      Steps p (.cancel clid)
        { p with manager, canceled := (clid, st.remaining) :: p.canceled }
  | fed (ev : Event) : Steps p (.feed ev) { p with manager := p.manager.feed ev }

variable {p p' : Pool} {a : Section} {id : Bytes}

/-- The inversion of a step. -/
theorem steps_of_step (stepped : p.step a = some p') : p.Steps a p' := by
  cases a with
  | check ord =>
    simp only [step] at stepped
    split at stepped
    · cases stepped
      exact .rejected ord _ ‹_›
    · cases stepped
      exact .checked ord ‹_›
  | advance i =>
    simp only [step, Option.bind_eq_bind, Option.bind_eq_some_iff] at stepped
    obtain ⟨⟨ord, stage⟩, at_, ⟨manager, stage'⟩, next, stepped⟩ := stepped
    cases stepped
    cases stage <;> cases next
    · exact .inserted i ord at_
    · exact .matched i ord at_
    · exact .updated i ord _ at_
    · exact .returned i ord _ at_
  | cancel clid =>
    simp only [step] at stepped
    rcases p.manager.cancelOrder_cases clid with
      ⟨ended, same⟩ | ⟨st, found, live, reported, ob, policy, orders⟩
    · rw [same] at stepped
      cases stepped
      exact .refused clid ended
    · rw [reported] at stepped
      cases stepped
      exact .canceled clid st found live _ ob policy orders
  | feed ev =>
    cases stepped
    exact .fed ev

/-- The sections of a call that nothing interrupts make up `submit_order`. -/
theorem submit_alone (p : Pool) (ord : Order) :
    ∃ k stage, stage.result = some (p.manager.submitOrder ord).1 ∧
      run step p (.check ord :: List.replicate k (.advance p.submits.length)) =
        some { p with
          manager := (p.manager.submitOrder ord).2
          submits := p.submits ++ [⟨ord, stage⟩] } := by
  unfold OrderManager.submitOrder
  cases checked : p.manager.checkOrder ord with
  | some reason => exact ⟨0, .rejected reason, rfl, by simp [run, step, checked]⟩
  | none =>
    refine ⟨4, .returned _, rfl, ?_⟩
    simp [run, step, checked, List.replicate, OrderManager.nextSection]

/-- The id that a section submits. -/
def submitted : Section → Option Bytes
  | .check ord => some ord.clid
  | _ => none

theorem ids_of_step (stepped : p.step a = some p') :
    p'.ids = p.ids ++ (submitted a).toList := by
  cases steps_of_step stepped with
  | rejected | checked => simp [ids, submitted]
  | inserted i ord at_ | matched i ord at_ | updated i ord fills at_ | returned i ord fills at_ =>
    simp only [ids, submitted, Option.toList_none, List.append_nil]
    exact Kit.ListSet.map_set_same at_ rfl
  | refused | canceled | fed => simp [ids, submitted]

theorem ids_of_run {as : List Section} (ran : run step p as = some p') :
    p'.ids = p.ids ++ as.filterMap submitted := by
  induction as generalizing p with
  | nil =>
    cases ran
    simp
  | cons a as ih =>
    obtain ⟨mid, stepped, ran⟩ := run_cons_eq_some.mp ran
    rw [ih ran, ids_of_step stepped, List.append_assoc]
    cases h : submitted a <;> simp [h]

/-- A section that submits does so under a new id. -/
def FreshId (p : Pool) (a : Section) : Prop := ∀ id, submitted a = some id → id ∉ p.ids

theorem everyStep_freshId {as : List Section} (start : p.submits = [])
    (distinct : (as.filterMap submitted).Nodup) : EveryStep step FreshId p as := by
  apply everyStep_iff.mpr
  rintro done a ⟨rest, rfl⟩ mid ran id own
  rw [ids_of_run ran, ids, start, List.map_nil, List.nil_append]
  simp only [List.filterMap_append, List.filterMap_cons, own, List.filterMap_nil,
    List.append_assoc] at distinct
  have := List.disjoint_of_nodup_append distinct
  exact fun early => this early (by simp)

end Pool

end EtradePipeline
