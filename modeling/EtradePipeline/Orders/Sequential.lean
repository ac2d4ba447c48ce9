import EtradePipeline.Orders.Calls
import EtradePipeline.Kit.Transition

/-! Sequential runs of the order manager, with client ids that may be used again.  Inserting keeps
an entry that the id already has, while the status section writes to whatever entry it finds, so a
second submission meets the entry of the first.  A filled or canceled entry survives that exactly
when the second submission is rejected, or meets a filled entry and trades. -/

namespace EtradePipeline

open Kit.Transition

/-- A call in a sequential run: one of the manager, or a feed event that its book receives. -/
inductive Call where
  | submit (ord : Order)
  | cancel (clid : Bytes)
  | feed (ev : Event)

namespace OrderManager

def after (m : OrderManager) : Call → OrderManager
  | .submit ord => (m.submitOrder ord).2
  | .cancel clid => (m.cancelOrder clid).2
  | .feed ev => m.feed ev

/-- The manager after a run of calls. -/
def calls (m : OrderManager) (run : List Call) : OrderManager := run.foldl after m

def callStep (m : OrderManager) (call : Call) : Option OrderManager := some (m.after call)

/-- Every level of the manager's book has a positive size. -/
def BookPositive (m : OrderManager) : Prop := ∀ ob, m.ob = some ob → ob.Positive

variable {m : OrderManager}

@[simp] theorem run_callStep (m : OrderManager) (run : List Call) :
    Kit.Transition.run callStep m run = some (m.calls run) :=
  run_total after m run

@[simp] theorem calls_snoc (m : OrderManager) (run : List Call) (call : Call) :
    m.calls (run ++ [call]) = (m.calls run).after call := by
  simp [calls]

theorem after_bookPositive (positive : m.BookPositive) (call : Call) :
    (m.after call).BookPositive := by
  intro ob attached
  cases call with
  | submit ord =>
    rcases m.submitOrder_cases ord with ⟨_, -, result⟩ | ⟨old, -, hob, -, -, book, -⟩
    · simp only [after, result, countRejected_ob] at attached
      exact positive ob attached
    · simp only [after, book, Option.some.injEq] at attached
      subst attached
      exact OrderBook.matchOrder_positive (positive old hob) ord
  | cancel clid =>
    rcases m.cancelOrder_cases clid with ⟨-, same⟩ | ⟨_, -, -, -, book, -⟩
    · simp only [after, same] at attached
      exact positive ob attached
    · simp only [after, book] at attached
      exact positive ob attached
  | feed ev =>
    obtain ⟨old, hob, rfl⟩ := Option.map_eq_some_iff.mp attached
    exact OrderBook.applyEvent_positive (positive old hob) ev

/-- What a call can do to the entry of an id: nothing, write the result of an accepted submission of
that id, or cancel it. -/
theorem after_lookup (m : OrderManager) (call : Call) (id : Bytes) :
    (m.after call).orders.lookup id = m.orders.lookup id ∨
    (∃ ord ob, call = .submit ord ∧ ord.clid = id ∧ m.checkOrder ord = none ∧ m.ob = some ob ∧
      0 < ord.size ∧ (m.after call).orders.lookup id =
        some (((m.orders.lookup id).getD (newState ord)).afterMatch (ob.matchOrder ord).1)) ∨
    ∃ st, call = .cancel id ∧ m.orders.lookup id = some st ∧ st.status.isTerminal = false ∧
      (m.after call).orders.lookup id = some { st with remaining := 0, status := .CANCELED } := by
  cases call with
  | submit ord =>
    rcases m.submitOrder_cases ord with ⟨_, -, result⟩ | ⟨ob, passed, hob, asked, -, -, -, entries⟩
    · left
      simp [after, result]
    · by_cases own : id = ord.clid
      · subst own
        right; left
        exact ⟨ord, ob, rfl, rfl, passed, hob, asked, by simp [after, entries]⟩
      · left
        simp [after, entries, own]
  | cancel clid =>
    rcases m.cancelOrder_cases clid with ⟨-, same⟩ | ⟨st, found, live, -, -, -, orders⟩
    · left
      simp [after, same]
    · by_cases own : id = clid
      · subst own
        right; right
        exact ⟨st, rfl, found, live, by simp [after, orders]⟩
      · left
        simp [after, orders, own]
  | feed ev => exact .inl rfl

end OrderManager

/-! ### Entries -/

/-- What an entry holds between calls. -/
def State.Settled (st : State) : Prop :=
  match st.status with
  | .NEW => False
  | .OPEN | .PARTIAL => 0 < st.remaining
  | .FILLED | .CANCELED => st.remaining = 0

namespace State

variable {st : State} {fills : List Fill}

theorem afterMatch_settled (left : 0 < st.remaining) : (st.afterMatch fills).Settled := by
  unfold afterMatch
  split_ifs with none ended
  · exact left
  · rfl
  · show 0 < st.remaining - fillTotal fills
    omega

theorem afterMatch_filled (spent : st.remaining = 0) (some : fills ≠ [])
    (sizes : ∀ f ∈ fills, 0 < f.size) :
    (st.afterMatch fills).status = .FILLED ∧ (st.afterMatch fills).remaining = 0 := by
  have := fillTotal_nonneg sizes
  have ended : st.remaining - fillTotal fills ≤ 0 := by omega
  simp [afterMatch, some, ended]

theorem Settled.remaining_pos (settled : st.Settled) (live : st.status.isTerminal = false) :
    0 < st.remaining := by
  unfold Settled at settled
  cases h : st.status <;> simp_all [Status.isTerminal]

theorem Settled.remaining_eq_zero (settled : st.Settled) (ended : st.status.isTerminal = true) :
    st.remaining = 0 := by
  unfold Settled at settled
  cases h : st.status <;> simp_all [Status.isTerminal]

end State

/-! ### Terminal entries -/

namespace OrderManager

variable {m : OrderManager}

/-- An entry that is filled or canceled in one manager has the same status and remaining quantity in
a later one. -/
def TerminalKept (early late : OrderManager) : Prop :=
  ∀ id st, early.orders.lookup id = some st → st.status.isTerminal = true →
    ∃ st', late.orders.lookup id = some st' ∧ st'.status = st.status ∧
      st'.remaining = st.remaining

/-- Every open entry has some quantity left. -/
def OpenRemaining (m : OrderManager) : Prop :=
  ∀ id st, m.orders.lookup id = some st → st.status.isOpen = true → 0 < st.remaining

/-- Along a run, no entry that is filled or canceled changes any more, and every open entry has some
quantity left. -/
def TerminalStays (m : OrderManager) (run : List Call) : Prop :=
  ∀ early late, early <+: late → late <+: run →
    TerminalKept (m.calls early) (m.calls late) ∧ (m.calls late).OpenRemaining

/-- A call that leaves terminal entries alone: any but an accepted submission whose id has a
canceled entry, or has a filled one while the book holds nothing that the order could trade
against. -/
def LeavesTerminal (m : OrderManager) (call : Call) : Prop :=
  ∀ ord, call = .submit ord → m.checkOrder ord = none →
    ∀ st, m.orders.lookup ord.clid = some st →
      st.status ≠ .CANCELED ∧
      (st.status = .FILLED → ∃ ob, m.ob = some ob ∧ ob.opposite ord.symbol ord.side ≠ [])

def EntriesSettled (m : OrderManager) : Prop :=
  ∀ id st, m.orders.lookup id = some st → st.Settled

theorem TerminalKept.refl (m : OrderManager) : m.TerminalKept m :=
  fun _ st found _ => ⟨st, found, rfl, rfl⟩

theorem TerminalKept.trans {a b c : OrderManager} (ab : TerminalKept a b) (bc : TerminalKept b c) :
    TerminalKept a c := by
  intro id st found ended
  obtain ⟨st', found', status', remaining'⟩ := ab id st found ended
  obtain ⟨st'', found'', status'', remaining''⟩ := bc id st' found' (status' ▸ ended)
  exact ⟨st'', found'', status''.trans status', remaining''.trans remaining'⟩

theorem EntriesSettled.openRemaining (settled : m.EntriesSettled) : m.OpenRemaining := by
  intro id st found live
  apply (settled id st found).remaining_pos
  cases h : st.status <;> simp_all [Status.isOpen, Status.isTerminal]

/-- A terminal entry that an accepted submission writes over, when it is filled and the order
trades. -/
theorem filled_again (positive : m.BookPositive) {ob : OrderBook} (hob : m.ob = some ob)
    {ord : Order}
    (asked : 0 < ord.size) {st : State} (settled : st.Settled) (ended : st.status.isTerminal = true)
    (leaves : st.status ≠ .CANCELED ∧
      (st.status = .FILLED → ∃ ob, m.ob = some ob ∧ ob.opposite ord.symbol ord.side ≠ [])) :
    (st.afterMatch (ob.matchOrder ord).1).status = st.status ∧
      (st.afterMatch (ob.matchOrder ord).1).remaining = st.remaining ∧
      (st.afterMatch (ob.matchOrder ord).1).Settled := by
  obtain ⟨uncanceled, filled⟩ := leaves
  have status : st.status = .FILLED := by
    cases h : st.status <;> simp_all [Status.isTerminal]
  have spent := settled.remaining_eq_zero ended
  obtain ⟨ob', hob', levels⟩ := filled status
  obtain rfl : ob = ob' := by simpa [hob] using hob'
  have some := mt (OrderBook.matchOrder_eq_nil_iff (positive ob hob) asked).mp levels
  obtain ⟨status', spent'⟩ :=
    State.afterMatch_filled spent some fun f hf => (ob.matchOrder_fill ord f hf).1
  refine ⟨by rw [status', status], by rw [spent', spent], ?_⟩
  simp only [State.Settled, status']
  exact spent'

/-- The step: a call that leaves terminal entries alone settles the entry that it writes. -/
theorem after_keeps (positive : m.BookPositive) (settled : m.EntriesSettled) {call : Call}
    (leaves : m.LeavesTerminal call) :
    (m.after call).EntriesSettled ∧ TerminalKept m (m.after call) := by
  suffices entry : ∀ id, (∀ st', (m.after call).orders.lookup id = some st' → st'.Settled) ∧
      ∀ st, m.orders.lookup id = some st → st.status.isTerminal = true →
        ∃ st', (m.after call).orders.lookup id = some st' ∧ st'.status = st.status ∧
          st'.remaining = st.remaining from
    ⟨fun id => (entry id).1, fun id => (entry id).2⟩
  intro id
  rcases m.after_lookup call id with same | ⟨ord, ob, rfl, rfl, passed, hob, asked, written⟩ |
    ⟨st, rfl, found, live, written⟩
  · rw [same]
    exact ⟨settled id, fun st found _ => ⟨st, found, rfl, rfl⟩⟩
  · rw [written]
    cases found : m.orders.lookup ord.clid with
    | none =>
      refine ⟨?_, by simp⟩
      rintro _ ⟨⟩
      exact State.afterMatch_settled asked
    | some st =>
      rw [Option.getD_some]
      have before := settled ord.clid st found
      cases ended : st.status.isTerminal with
      | false =>
        refine ⟨?_, ?_⟩
        · rintro _ ⟨⟩
          exact State.afterMatch_settled (before.remaining_pos ended)
        · rintro _ ⟨⟩ terminal
          simp [ended] at terminal
      | true =>
        obtain ⟨status, remaining, kept⟩ :=
          filled_again positive hob asked before ended (leaves ord rfl passed st found)
        refine ⟨?_, ?_⟩
        · rintro _ ⟨⟩
          exact kept
        · rintro _ ⟨⟩ _
          exact ⟨_, rfl, status, remaining⟩
  · rw [written, found]
    refine ⟨?_, ?_⟩
    · rintro _ ⟨⟩
      rfl
    · rintro _ ⟨⟩ terminal
      simp [live] at terminal

/-- The run: from settled entries, when each call leaves terminal entries alone. -/
theorem terminalStays_of_leaves (positive : m.BookPositive) (settled : m.EntriesSettled)
    {run : List Call} (each : EveryStep callStep LeavesTerminal m run) : m.TerminalStays run := by
  rintro early late ⟨between, rfl⟩ whole
  have each := each.initial whole
  have start : (m.calls early).BookPositive ∧ (m.calls early).EntriesSettled := by
    refine run_invariant (I := fun m => m.BookPositive ∧ m.EntriesSettled) ?_ ⟨positive, settled⟩
      (each.initial ⟨between, rfl⟩) (run_callStep m early)
    rintro m call _ ⟨positive, settled⟩ leaves ⟨⟩
    exact ⟨after_bookPositive positive call, (after_keeps positive settled leaves).1⟩
  have ran : Kit.Transition.run callStep (m.calls early) between =
      some (m.calls (early ++ between)) := by
    simp [calls]
  obtain ⟨-, settled, kept⟩ := run_invariant
    (I := fun now => now.BookPositive ∧ now.EntriesSettled ∧ TerminalKept (m.calls early) now)
    (fun m call _ inv leaves stepped => by
      obtain ⟨positive, settled, kept⟩ := inv
      cases stepped
      obtain ⟨settled', kept'⟩ := after_keeps positive settled leaves
      exact ⟨after_bookPositive positive call, settled', kept.trans kept'⟩)
    ⟨start.1, start.2, TerminalKept.refl _⟩ (each.final (run_callStep m early)) ran
  exact ⟨kept, settled.openRemaining⟩

theorem leavesTerminal_of_kept (positive : m.BookPositive) {call : Call}
    (kept : TerminalKept m (m.after call)) : m.LeavesTerminal call := by
  rintro ord rfl passed st found
  rcases m.submitOrder_cases ord with ⟨_, rejected, -⟩ | ⟨ob, -, hob, asked, -, -, -, entries⟩
  · simp [passed] at rejected
  have written : (m.after (.submit ord)).orders.lookup ord.clid =
      some (st.afterMatch (ob.matchOrder ord).1) := by
    simp [after, entries, found]
  constructor
  · intro canceled
    obtain ⟨st', found', status, -⟩ := kept _ st found (by simp [canceled, Status.isTerminal])
    rw [written] at found'
    cases found'
    exact State.afterMatch_status_ne_canceled _ _ (status.trans canceled)
  · intro filled
    refine ⟨ob, hob, fun empty => ?_⟩
    obtain ⟨st', found', status, -⟩ := kept _ st found (by simp [filled, Status.isTerminal])
    rw [written, (OrderBook.matchOrder_eq_nil_iff (positive ob hob) asked).mpr empty] at found'
    cases found'
    rw [State.afterMatch_nil, filled] at status
    cases status

end OrderManager

open OrderManager

/-- From an empty manager, terminal entries stay as they are over a run, and open entries have some
quantity left, exactly when every call of the run leaves terminal entries alone. -/
theorem terminalStays_iff (ob : Option OrderBook) (reached : ∀ b, ob = some b → b.Reachable)
    (policy : RiskPolicy) (run : List Call) :
    (start ob policy).TerminalStays run ↔
      EveryStep callStep LeavesTerminal (start ob policy) run := by
  have positive : (start ob policy).BookPositive := fun b attached => (reached b attached).positive
  constructor
  · intro stays
    refine everyStep_iff.mpr fun done call pre m ran => ?_
    obtain rfl : (start ob policy).calls done = m := by simpa using ran
    have kept := (stays done (done ++ [call]) ⟨[call], rfl⟩ pre).1
    rw [calls_snoc] at kept
    refine leavesTerminal_of_kept ?_ kept
    refine run_invariant' (fun m call _ positive stepped => ?_) positive
      (run_callStep (start ob policy) done)
    cases stepped
    exact after_bookPositive positive call
  · refine terminalStays_of_leaves positive fun id st found => ?_
    simp [start] at found

/-- A buy of `size` for `AAPL` under the id that two runs of a client share. -/
def reusedOrder (size : Int) : Order := ⟨bytes "cli1", .buy, bytes "AAPL", .finite 100, size⟩

theorem terminalStays_iff_on_cancel :
    (start (some .empty) {}).TerminalStays [.submit (reusedOrder 10), .cancel (bytes "cli1")] := by
  refine (terminalStays_iff (some .empty) ?_ {} _).mpr ?_
  · rintro _ ⟨⟩
    exact ⟨[], rfl⟩
  · refine ⟨?_, ?_⟩
    · rintro ord ⟨⟩ - st found
      simp [start] at found
    · rintro m ⟨⟩
      refine ⟨?_, fun _ _ => trivial⟩
      rintro ord ⟨⟩

/-- The run that submits an order, cancels it and submits under the same id again. -/
def reusedRun : List Call :=
  [.submit (reusedOrder 10), .cancel (bytes "cli1"), .submit (reusedOrder 5)]

/-- The canceled entry of the first order ends `OPEN` with nothing left. -/
theorem terminal_overwritten :
    (((start (some .empty) {}).calls (reusedRun.take 2)).orders.lookup (bytes "cli1")).map
      (fun st => (st.status, st.remaining)) = some (.CANCELED, 0) ∧
    (((start (some .empty) {}).calls reusedRun).orders.lookup (bytes "cli1")).map
      (fun st => (st.status, st.remaining)) = some (.OPEN, 0) ∧
    ¬ (start (some .empty) {}).TerminalStays reusedRun := by
  have before : (((start (some .empty) {}).calls (reusedRun.take 2)).orders.lookup
      (bytes "cli1")).map (fun st => (st.status, st.remaining)) = some (.CANCELED, 0) := by decide
  have final : (((start (some .empty) {}).calls reusedRun).orders.lookup (bytes "cli1")).map
      (fun st => (st.status, st.remaining)) = some (.OPEN, 0) := by decide
  refine ⟨before, final, fun stays => ?_⟩
  obtain ⟨st, found, view⟩ := Option.map_eq_some_iff.mp final
  obtain ⟨status, remaining⟩ := Prod.mk.inj view
  have := (stays reusedRun reusedRun (List.prefix_refl _) (List.prefix_refl _)).2 _ st found
    (by rw [status]; rfl)
  omega

end EtradePipeline
