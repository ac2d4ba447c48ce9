import EtradePipeline.Orders.Sections

/-! Filled and canceled quantity, with calls that interleave.  A cancel may land before the match of
an order, between the match and the status section, or after it.  Before the status section runs,
the entry is `NEW` with everything left or `CANCELED` with everything reported; the section then
subtracts the fills from what is left without looking at the status, so what was canceled is counted
again when it finds fills for a `CANCELED` entry. -/

namespace EtradePipeline

open Kit.Transition
open Kit.KeyedList (total total_cons)

/-- The quantity in the fills that a call has returned. -/
def SubmitCall.returnedSize (c : SubmitCall) : Int :=
  match c.stage with
  | .returned fills => fillTotal fills
  | _ => 0

/-- For every order that is not rejected, what its call has returned and what cancels of its id have
reported is no more than its size, and once its call has returned, these and what remains of its
entry make up the size. -/
def Pool.Exclusive (p : Pool) : Prop :=
  ∀ c ∈ p.submits, (∀ reason, c.stage ≠ .rejected reason) →
    c.returnedSize + p.canceledSize c.ord.clid ≤ c.ord.size ∧
    ∀ fills, c.stage = .returned fills → ∃ st, p.entry c.ord.clid = some st ∧
      fillTotal fills + p.canceledSize c.ord.clid + st.remaining = c.ord.size

/-- A section other than a status section with fills that finds its entry canceled. -/
def Pool.findsLive (p : Pool) : Section → Bool
  | .advance i =>
    match p.submits[i]? with
    | some ⟨ord, .matched fills⟩ =>
      fills.isEmpty || (p.entry ord.clid).all fun st => decide (st.status ≠ .CANCELED)
    | _ => true
  | _ => true

/-- Every call of `submit_order` has returned. -/
def Pool.Over (p : Pool) : Prop :=
  ∀ c ∈ p.submits, (∃ reason, c.stage = .rejected reason) ∨ ∃ fills, c.stage = .returned fills

/-! ### The invariant -/

/-- An entry whose status section has not run, for an order of size `n`: all of it is left, or all
of it was canceled. -/
def State.Waiting (st : State) (n canceled : Int) : Prop :=
  st.status = .NEW ∧ st.remaining = n ∧ canceled = 0 ∨
  st.status = .CANCELED ∧ st.remaining = 0 ∧ canceled = n

/-- What the stage of a call says about the entry of its id and the quantity canceled under it.
With `balanced`, the quantities make up the order's size after the status section. -/
def SubmitCall.Agrees (balanced : Prop) (c : SubmitCall) (entry : Option State) (canceled : Int) :
    Prop :=
  match c.stage with
  | .rejected _ => entry = none ∧ canceled = 0
  | .checked => 0 < c.ord.size ∧ entry = none ∧ canceled = 0
  | .inserted => 0 < c.ord.size ∧ ∃ st, entry = some st ∧ st.Waiting c.ord.size canceled
  | .matched fills => 0 < c.ord.size ∧ (∀ f ∈ fills, 0 < f.size) ∧ fillTotal fills ≤ c.ord.size ∧
      ∃ st, entry = some st ∧ st.Waiting c.ord.size canceled
  | .updated fills | .returned fills => 0 ≤ fillTotal fills ∧ ∃ st, entry = some st ∧
      0 ≤ st.remaining ∧ (balanced → fillTotal fills + canceled + st.remaining = c.ord.size)

theorem State.Waiting.remaining_nonneg {st : State} {n canceled : Int}
    (waiting : st.Waiting n canceled) (asked : 0 < n) : 0 ≤ st.remaining := by
  rcases waiting with ⟨-, all, -⟩ | ⟨-, none, -⟩ <;> omega

namespace SubmitCall

variable {c : SubmitCall} {ord : Order} {fills : List Fill} {st : State} {canceled : Int}
  {balanced : Prop}

theorem Agrees.remaining_nonneg (agrees : c.Agrees balanced (some st) canceled) :
    0 ≤ st.remaining := by
  obtain ⟨ord, stage⟩ := c
  cases stage with
  | rejected reason => cases agrees.1
  | checked => cases agrees.2.1
  | inserted =>
    obtain ⟨asked, _, ⟨⟩, waiting⟩ := agrees
    exact waiting.remaining_nonneg asked
  | matched fills =>
    obtain ⟨asked, -, -, _, ⟨⟩, waiting⟩ := agrees
    exact waiting.remaining_nonneg asked
  | updated fills | returned fills =>
    obtain ⟨-, _, ⟨⟩, nonneg, -⟩ := agrees
    exact nonneg

theorem Agrees.cancel (agrees : c.Agrees balanced (some st) canceled)
    (live : st.status.isTerminal = false) :
    c.Agrees balanced (some { st with remaining := 0, status := .CANCELED })
      (st.remaining + canceled) := by
  have whole : st.Waiting c.ord.size canceled →
      State.Waiting { st with remaining := 0, status := .CANCELED } c.ord.size
        (st.remaining + canceled) := by
    rintro (⟨-, all, none⟩ | ⟨ended, -⟩)
    · right
      exact ⟨rfl, rfl, by omega⟩
    · simp [ended, Status.isTerminal] at live
  obtain ⟨ord, stage⟩ := c
  cases stage with
  | rejected reason => cases agrees.1
  | checked => cases agrees.2.1
  | inserted =>
    obtain ⟨asked, _, ⟨⟩, waiting⟩ := agrees
    exact ⟨asked, _, rfl, whole waiting⟩
  | matched fills =>
    obtain ⟨asked, sizes, most, _, ⟨⟩, waiting⟩ := agrees
    exact ⟨asked, sizes, most, _, rfl, whole waiting⟩
  | updated fills | returned fills =>
    obtain ⟨traded, _, ⟨⟩, nonneg, sum⟩ := agrees
    refine ⟨traded, _, rfl, le_refl 0, fun balanced => ?_⟩
    have := sum balanced
    simp only at this ⊢
    omega

/-- The status section, which balances the quantities unless it finds fills for a canceled entry. -/
theorem Agrees.update {entry : Option State}
    (agrees : (⟨ord, .matched fills⟩ : SubmitCall).Agrees balanced entry canceled)
    (finds : balanced → fills ≠ [] → ∀ st, entry = some st → st.status ≠ .CANCELED) :
    (⟨ord, .updated fills⟩ : SubmitCall).Agrees balanced
      (entry.map fun st => st.afterMatch fills) canceled := by
  obtain ⟨asked, sizes, most, st, rfl, waiting⟩ := agrees
  refine ⟨fillTotal_nonneg sizes, _, rfl,
    State.afterMatch_remaining_nonneg (waiting.remaining_nonneg asked) fills, fun balanced => ?_⟩
  simp only at most waiting ⊢
  by_cases none : fills = []
  · subst none
    rw [State.afterMatch_nil, fillTotal_nil]
    rcases waiting with ⟨-, all, zero⟩ | ⟨-, zero, all⟩ <;> simp only <;> omega
  · obtain ⟨-, all, zero⟩ : st.status = .NEW ∧ st.remaining = ord.size ∧ canceled = 0 :=
      waiting.resolve_right fun ended => finds balanced none st rfl ended.1
    unfold State.afterMatch
    rw [if_neg none]
    split_ifs with ended <;> simp only <;> omega

end SubmitCall

namespace Pool

variable {p p' : Pool} {a : Section} {id : Bytes} {balanced : Prop}

/-- Every submission has its own id and agrees with the entry of that id; an id that was not
submitted has no entry. -/
structure Coherent (balanced : Prop) (p : Pool) : Prop where
  distinct : p.ids.Nodup
  unknown : ∀ id, id ∉ p.ids → p.entry id = none ∧ p.canceledSize id = 0
  agrees : ∀ c ∈ p.submits, c.Agrees balanced (p.entry c.ord.clid) (p.canceledSize c.ord.clid)

theorem Coherent.submit (coherent : p.Coherent balanced) {ord : Order} {stage : Stage}
    (fresh : ord.clid ∉ p.ids) (submits : p'.submits = p.submits ++ [⟨ord, stage⟩])
    (canceled : p'.canceled = p.canceled) (entries : ∀ id, p'.entry id = p.entry id)
    (own : (⟨ord, stage⟩ : SubmitCall).Agrees balanced none 0) : p'.Coherent balanced := by
  have ids : p'.ids = p.ids ++ [ord.clid] := by simp [Pool.ids, submits]
  have sizes : ∀ id, p'.canceledSize id = p.canceledSize id := by simp [canceledSize, canceled]
  constructor
  · rw [ids, List.nodup_append]
    refine ⟨coherent.distinct, by simp, ?_⟩
    rintro x early y late rfl
    obtain rfl : x = ord.clid := by simpa using late
    exact fresh early
  · intro id absent
    rw [entries, sizes]
    refine coherent.unknown id fun early => absent ?_
    rw [ids]
    exact List.mem_append_left _ early
  · intro c hc
    rw [entries, sizes]
    rw [submits] at hc
    rcases List.mem_append.mp hc with early | late
    · exact coherent.agrees c early
    · obtain rfl := List.mem_singleton.mp late
      obtain ⟨absent, none⟩ := coherent.unknown ord.clid fresh
      rw [absent, none]
      exact own

theorem Coherent.advance (coherent : p.Coherent balanced) {i : Nat} {ord : Order}
    {stage stage' : Stage} (at_ : p.submits[i]? = some ⟨ord, stage⟩)
    (submits : p'.submits = p.submits.set i ⟨ord, stage'⟩) (canceled : p'.canceled = p.canceled)
    (others : ∀ id, id ≠ ord.clid → p'.entry id = p.entry id)
    (own : (⟨ord, stage⟩ : SubmitCall).Agrees balanced (p.entry ord.clid)
        (p.canceledSize ord.clid) →
      (⟨ord, stage'⟩ : SubmitCall).Agrees balanced (p'.entry ord.clid)
        (p.canceledSize ord.clid)) : p'.Coherent balanced := by
  have ids : p'.ids = p.ids := by
    simp only [Pool.ids, submits]
    exact Kit.ListSet.map_set_same at_ rfl
  have sizes : ∀ id, p'.canceledSize id = p.canceledSize id := by simp [canceledSize, canceled]
  have member : (⟨ord, stage⟩ : SubmitCall) ∈ p.submits := List.mem_of_getElem? at_
  constructor
  · rw [ids]
    exact coherent.distinct
  · intro id absent
    rw [ids] at absent
    have : id ≠ ord.clid := by
      rintro rfl
      exact absent (List.mem_map.mpr ⟨_, member, rfl⟩)
    rw [others id this, sizes]
    exact coherent.unknown id absent
  · intro c hc
    rw [sizes]
    rw [submits] at hc
    rcases Kit.ListSet.mem_set_of_nodup coherent.distinct at_ hc with rfl | ⟨early, other⟩
    · exact own (coherent.agrees _ member)
    · rw [others _ other]
      exact coherent.agrees c early

theorem Coherent.remaining_nonneg (coherent : p.Coherent balanced) {st : State}
    (found : p.entry id = some st) : 0 ≤ st.remaining := by
  by_cases known : id ∈ p.ids
  · obtain ⟨c, hc, rfl⟩ := List.mem_map.mp known
    have agrees := coherent.agrees c hc
    rw [found] at agrees
    exact agrees.remaining_nonneg
  · rw [(coherent.unknown id known).1] at found
    cases found

/-- The step: a section keeps the pool coherent, and balanced when it finds a live entry. -/
theorem coherent_step (coherent : p.Coherent balanced) (fresh : p.FreshId a)
    (finds : balanced → p.findsLive a = true) (stepped : p.step a = some p') :
    p'.Coherent balanced := by
  cases steps_of_step stepped with
  | rejected ord reason checked =>
    exact coherent.submit (fresh _ rfl) rfl rfl (fun _ => rfl) ⟨rfl, rfl⟩
  | checked ord checked =>
    obtain ⟨asked, -⟩ := OrderManager.checkOrder_eq_none.mp checked
    exact coherent.submit (fresh _ rfl) rfl rfl (fun _ => rfl) ⟨asked, rfl, rfl⟩
  | inserted i ord at_ =>
    refine coherent.advance at_ rfl rfl (fun id other => ?_) ?_
    · simp [entry, OrderManager.insertNew_lookup, other]
    · rintro ⟨asked, absent, zero⟩
      have written : (p.manager.insertNew ord).orders.lookup ord.clid =
          some (OrderManager.newState ord) := by
        rw [OrderManager.insertNew_lookup, if_pos rfl]
        simp only [entry] at absent
        rw [absent, Option.getD_none]
      exact ⟨asked, _, written, .inl ⟨rfl, rfl, zero⟩⟩
  | matched i ord at_ =>
    refine coherent.advance at_ rfl rfl (fun id other => ?_) ?_
    · simp [entry]
    · rintro ⟨asked, st, found, waiting⟩
      obtain ⟨sizes, most⟩ := p.manager.matchBook_fills ord
      refine ⟨asked, sizes, most.trans (max_eq_left asked.le).le, st, ?_, waiting⟩
      simpa [entry] using found
  | updated i ord fills at_ =>
    refine coherent.advance at_ rfl rfl (fun id other => ?_) fun agrees => ?_
    · simp [entry, OrderManager.updateStatus_lookup, other]
    · have written : (p.manager.updateStatus ord.clid fills).orders.lookup ord.clid =
          (p.entry ord.clid).map fun st => st.afterMatch fills := by
        rw [OrderManager.updateStatus_lookup, if_pos rfl]
        rfl
      simp only [entry, written]
      refine agrees.update fun balanced some st found => ?_
      have := finds balanced
      simpa [findsLive, at_, some, found] using this
  | returned i ord fills at_ =>
    exact coherent.advance at_ rfl rfl (fun _ _ => rfl) fun agrees => agrees
  | refused clid ended => exact coherent
  | canceled clid st found live manager ob policy orders =>
    have others : ∀ id, id ≠ clid → manager.orders.lookup id = p.entry id := by
      intro id other
      rw [orders, AList.lookup_insert_ne other]
      rfl
    refine ⟨coherent.distinct, fun id absent => ?_, fun c hc => ?_⟩
    · have other : id ≠ clid := by
        rintro rfl
        rw [(coherent.unknown id absent).1] at found
        cases found
      simp only [entry, others id other, canceledSize, total_cons, if_neg (Ne.symm other), zero_add]
      exact coherent.unknown id absent
    · have agrees := coherent.agrees c hc
      by_cases own : c.ord.clid = clid
      · subst own
        simp only [entry, orders, AList.lookup_insert, canceledSize, total_cons, if_true]
        rw [found] at agrees
        exact agrees.cancel live
      · simp only [entry, others _ own, canceledSize, total_cons, if_neg (Ne.symm own), zero_add]
        exact agrees
  | fed ev => exact ⟨coherent.distinct, coherent.unknown, coherent.agrees⟩

theorem coherent_start (ob : Option OrderBook) (policy : RiskPolicy) :
    (start ob policy).Coherent balanced :=
  ⟨List.nodup_nil, fun _ _ => ⟨rfl, rfl⟩, by simp [start]⟩

/-- In a balanced pool nothing is both filled and canceled. -/
theorem Coherent.exclusive (coherent : p.Coherent True) : p.Exclusive := by
  rintro ⟨ord, stage⟩ hc accepted
  have agrees := coherent.agrees _ hc
  cases stage with
  | rejected reason => exact absurd rfl (accepted reason)
  | checked =>
    obtain ⟨asked, -, zero⟩ := agrees
    refine ⟨?_, by simp⟩
    simp only [SubmitCall.returnedSize] at *
    omega
  | inserted =>
    obtain ⟨asked, st, -, waiting⟩ := agrees
    refine ⟨?_, by simp⟩
    simp only [SubmitCall.returnedSize] at *
    rcases waiting with ⟨-, -, zero⟩ | ⟨-, -, all⟩ <;> omega
  | matched fills =>
    obtain ⟨asked, -, -, st, -, waiting⟩ := agrees
    refine ⟨?_, by simp⟩
    simp only [SubmitCall.returnedSize] at *
    rcases waiting with ⟨-, -, zero⟩ | ⟨-, -, all⟩ <;> omega
  | updated fills =>
    obtain ⟨traded, st, found, nonneg, sum⟩ := agrees
    have := sum trivial
    refine ⟨?_, by simp⟩
    simp only [SubmitCall.returnedSize] at *
    omega
  | returned fills =>
    obtain ⟨traded, st, found, nonneg, sum⟩ := agrees
    have sum := sum trivial
    refine ⟨?_, ?_⟩
    · simp only [SubmitCall.returnedSize] at *
      omega
    · rintro _ ⟨⟩
      exact ⟨st, found, sum⟩

/-! ### A status section that finds a canceled entry -/

/-- The call has written its fills back, and with what was canceled they are more than its size. -/
def Overdrawn (i : Nat) (p : Pool) : Prop :=
  ∃ ord fills, (p.submits[i]? = some ⟨ord, .updated fills⟩ ∨
      p.submits[i]? = some ⟨ord, .returned fills⟩) ∧
    ord.size < fillTotal fills + p.canceledSize ord.clid

theorem overdrawn_of_canceled {i : Nat} (coherent : p.Coherent False)
    (finds : p.findsLive (.advance i) = false) (stepped : p.step (.advance i) = some p') :
    p'.Overdrawn i := by
  cases steps_of_step stepped with
  | inserted _ ord at_ => simp [findsLive, at_] at finds
  | matched _ ord at_ => simp [findsLive, at_] at finds
  | returned _ ord fills at_ => simp [findsLive, at_] at finds
  | updated _ ord fills at_ =>
    obtain ⟨asked, sizes, -, st, found, waiting⟩ := coherent.agrees _ (List.mem_of_getElem? at_)
    simp only [findsLive, at_, found, Option.all_some, Bool.or_eq_false_iff,
      List.isEmpty_eq_false_iff, decide_eq_false_iff_not, not_not] at finds
    obtain ⟨some, ended⟩ := finds
    have all : p.canceledSize ord.clid = ord.size := by
      rcases waiting with ⟨new, -⟩ | ⟨-, -, all⟩
      · rw [ended] at new
        cases new
      · exact all
    have traded := (fillTotal_pos_iff sizes).mpr some
    obtain ⟨bound, -⟩ := List.getElem?_eq_some_iff.mp at_
    refine ⟨ord, fills, .inl ?_, ?_⟩
    · simp [bound]
    · show ord.size < fillTotal fills + p.canceledSize ord.clid
      omega

theorem overdrawn_step {i : Nat} (coherent : p.Coherent False) (overdrawn : p.Overdrawn i)
    (stepped : p.step a = some p') : p'.Overdrawn i := by
  obtain ⟨ord, fills, own, more⟩ := overdrawn
  -- The call stays where it is, but for the step from its status section to its return.
  have keep : ∀ submits : List SubmitCall, (∀ c, p.submits[i]? = some c → submits[i]? = some c) →
      ∀ manager, Overdrawn i { p with manager, submits } := by
    intro submits same manager
    exact ⟨ord, fills, own.imp (same _) (same _), more⟩
  have passed : ∀ j stage stage' ord', p.submits[j]? = some ⟨ord', stage⟩ →
      (∀ fills, stage ≠ .updated fills ∧ stage ≠ .returned fills) → ∀ manager,
      Overdrawn i { p with manager, submits := p.submits.set j ⟨ord', stage'⟩ } := by
    intro j stage stage' ord' at_ early manager
    refine keep _ (fun c hc => ?_) manager
    rw [List.getElem?_set_ne, hc]
    rintro rfl
    rw [at_] at own
    rcases own with ⟨⟨⟩⟩ | ⟨⟨⟩⟩
    · exact (early fills).1 rfl
    · exact (early fills).2 rfl
  cases steps_of_step stepped with
  | rejected ord' reason checked | checked ord' checked =>
    refine keep _ (fun c hc => ?_) _
    obtain ⟨bound, -⟩ := List.getElem?_eq_some_iff.mp hc
    rw [List.getElem?_append_left bound, hc]
  | inserted j ord' at_ => exact passed j _ _ ord' at_ (by simp) _
  | matched j ord' at_ => exact passed j _ _ ord' at_ (by simp) _
  | updated j ord' fills' at_ => exact passed j _ _ ord' at_ (by simp) _
  | returned j ord' fills' at_ =>
    by_cases same : j = i
    · subst same
      obtain ⟨bound, -⟩ := List.getElem?_eq_some_iff.mp at_
      rw [at_] at own
      rcases own with ⟨⟨⟩⟩ | ⟨⟨⟩⟩
      exact ⟨ord, fills, .inr (by simp [bound]), more⟩
    · refine keep _ (fun c hc => ?_) _
      rw [List.getElem?_set_ne same, hc]
  | refused clid ended => exact ⟨ord, fills, own, more⟩
  | canceled clid st found live manager ob policy orders =>
    refine ⟨ord, fills, own, ?_⟩
    have := coherent.remaining_nonneg found
    simp only [canceledSize, total_cons] at more ⊢
    split_ifs <;> omega
  | fed ev => exact ⟨ord, fills, own, more⟩

end Pool

open Pool

section Runs

variable {ob : Option OrderBook} {policy : RiskPolicy} {sections : List Section}

theorem exclusive_of_findsLive (distinct : (sections.filterMap submitted).Nodup)
    (each : EveryStep step (fun p a => p.findsLive a = true) (start ob policy) sections) :
    EveryState step Exclusive (start ob policy) sections := by
  have fresh : EveryStep step FreshId (start ob policy) sections := everyStep_freshId rfl distinct
  refine everyState_of_everyStep (I := Coherent True) ?keeps ?gives (coherent_start ob policy)
    (fresh.and each)
  case keeps =>
    exact fun p a p' coherent step stepped =>
      coherent_step coherent step.1 (fun _ => step.2) stepped
  case gives => exact fun p coherent => coherent.exclusive

/-- A status section that finds no live entry leaves a call that reports more than its order's size,
once it returns. -/
theorem findsLive_of_exclusive (distinct : (sections.filterMap submitted).Nodup) {final : Pool}
    (ran : run step (start ob policy) sections = some final) (ended : final.Over)
    (exclusive : EveryState step Exclusive (start ob policy) sections) :
    EveryStep step (fun p a => p.findsLive a = true) (start ob policy) sections := by
  have fresh : EveryStep step FreshId (start ob policy) sections := everyStep_freshId rfl distinct
  apply everyStep_iff.mpr
  rintro done a ⟨rest, rfl⟩ p before
  by_contra bad
  have keeps : ∀ (p : Pool) a p', p.Coherent False → p.FreshId a → p.step a = some p' →
      p'.Coherent False := fun p a p' coherent fresh stepped =>
    coherent_step coherent fresh False.elim stepped
  have coherent : p.Coherent False := by
    refine run_invariant keeps (coherent_start ob policy) (fresh.initial ?_) before
    exact ⟨[a] ++ rest, by simp⟩
  have onward : run step p (a :: rest) = some final := by
    rwa [List.append_assoc, run_append, before] at ran
  obtain ⟨next, stepped, ahead⟩ := run_cons_eq_some.mp onward
  obtain ⟨i, rfl⟩ : ∃ i, a = .advance i := by
    cases a with
    | advance i => exact ⟨i, rfl⟩
    | check | cancel | feed => exact absurd rfl bad
  have fresh : EveryStep step FreshId next rest := by
    rw [List.append_assoc] at fresh
    exact (fresh.final before).2 next stepped
  have doomed : final.Coherent False ∧ final.Overdrawn i := by
    refine run_invariant (I := fun p => p.Coherent False ∧ p.Overdrawn i)
      (fun p a p' inv fresh stepped => ?_) ⟨?_, ?_⟩ fresh ahead
    · exact ⟨keeps p a p' inv.1 fresh stepped, overdrawn_step inv.1 inv.2 stepped⟩
    · exact keeps p _ next coherent (fun _ none => by cases none) stepped
    · exact overdrawn_of_canceled coherent (by simpa using bad) stepped
  obtain ⟨-, ord, fills, own, more⟩ := doomed
  have last := exclusive _ (List.prefix_refl _) final ran
  rcases own with early | returned
  · rcases ended _ (List.mem_of_getElem? early) with ⟨_, ⟨⟩⟩ | ⟨_, ⟨⟩⟩
  · have := (last _ (List.mem_of_getElem? returned) (by simp)).1
    simp only [SubmitCall.returnedSize] at this
    omega

end Runs

/-- In a run of submissions with distinct ids, nothing is both filled and canceled if every status
section with fills finds a live entry.  If each of the submissions returns, only then. -/
theorem exclusive_iff_findsLive (ob : Option OrderBook) (policy : RiskPolicy)
    (sections : List Section) (distinct : (sections.filterMap submitted).Nodup) :
    (EveryStep step (fun p a => p.findsLive a = true) (start ob policy) sections →
      EveryState step Exclusive (start ob policy) sections) ∧
    ∀ final, run step (start ob policy) sections = some final → final.Over →
      EveryState step Exclusive (start ob policy) sections →
      EveryStep step (fun p a => p.findsLive a = true) (start ob policy) sections :=
  ⟨exclusive_of_findsLive distinct, fun _ ran ended exclusive =>
    findsLive_of_exclusive distinct ran ended exclusive⟩

def racedOrder : Order := ⟨bytes "cli1", .buy, bytes "AAPL", .finite 100, 10⟩

/-- 7 at 100.00. -/
def racedQuote : Event := ⟨1, 0, 0, 0, setSymbol (bytes "AAPL"), .finite 100, 7, setSrc []⟩

/-- A cancel that lands after the status section reports what the fills left. -/
theorem exclusive_with_late_cancel :
    EveryState step Exclusive (start (some .empty) {})
      [.feed racedQuote, .check racedOrder, .advance 0, .advance 0, .advance 0,
        .cancel (bytes "cli1"), .advance 0] :=
  (exclusive_iff_findsLive (some .empty) {} _ (by decide)).1 (by decide)

/-- A cancel that lands between the insertion and the match. -/
def racedCancel : List Section :=
  [.feed racedQuote, .check racedOrder, .advance 0, .cancel (bytes "cli1"), .advance 0, .advance 0,
    .advance 0]

/-- The cancel reports all 10, and the call returns a fill of 7. -/
theorem not_exclusive_with_early_cancel :
    (racedCancel.filterMap submitted).Nodup ∧
    (run step (start (some .empty) {}) racedCancel).map
        (fun p => (p.submits, p.canceledSize (bytes "cli1"))) =
      some ([⟨racedOrder, .returned [⟨bytes "cli1", 7, .finite 100⟩]⟩], 10) ∧
    ¬ EveryState step Exclusive (start (some .empty) {}) racedCancel := by
  have final : (run step (start (some .empty) {}) racedCancel).map
      (fun p => (p.submits, p.canceledSize (bytes "cli1"))) =
      some ([⟨racedOrder, .returned [⟨bytes "cli1", 7, .finite 100⟩]⟩], 10) := by decide
  refine ⟨by decide, final, fun all => ?_⟩
  obtain ⟨p, ran, view⟩ := Option.map_eq_some_iff.mp final
  obtain ⟨submits, canceled⟩ := Prod.mk.inj view
  have := (all racedCancel (List.prefix_refl _) p ran _
    (submits ▸ List.mem_singleton_self _) (by simp)).1
  simp only [SubmitCall.returnedSize, fillTotal_cons, fillTotal_nil, racedOrder] at this
  omega

end EtradePipeline
