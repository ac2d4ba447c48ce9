import EtradePipeline.Orders.Sequential

/-! Sequential runs whose accepted submissions have distinct ids.  A session keeps what the calls
have returned: the fills of each accepted submission and the size of each successful cancel.  The
entry of an id is then determined by what was submitted and returned for it. -/

namespace EtradePipeline

open Kit.KeyedList (total total_nil total_cons total_eq_zero)

/-- A manager and what its calls have returned so far. -/
structure Session where
  manager : OrderManager
  accepted : List (Order × List Fill)
  canceled : List (Bytes × Int)

namespace Session

/-- A session of a new manager. -/
def start (ob : Option OrderBook) (policy : RiskPolicy) : Session :=
  ⟨OrderManager.start ob policy, [], []⟩

/-- A call, with what it returns added to the session. -/
def call (s : Session) : Call → Session
  | .submit ord =>
    let (result, manager) := s.manager.submitOrder ord
    { s with
      manager
      accepted := if result.accepted then (ord, result.fills) :: s.accepted else s.accepted }
  | .cancel clid =>
    let (result, manager) := s.manager.cancelOrder clid
    { s with
      manager
      canceled := match result with
        | some size => (clid, size) :: s.canceled
        | none => s.canceled }
  | .feed ev => { s with manager := s.manager.feed ev }

/-- The ids of the accepted submissions. -/
def ids (s : Session) : List Bytes := s.accepted.map fun p => p.1.clid

/-- The quantity that the fills of the accepted submissions of an id trade. -/
def filled (s : Session) (id : Bytes) : Int :=
  total (s.accepted.map fun p => (p.1.clid, fillTotal p.2)) id

/-- The quantity that the successful cancels of an id report. -/
def canceledSize (s : Session) (id : Bytes) : Int := total s.canceled id

/-- Some cancel of the id succeeded. -/
def WasCanceled (s : Session) (id : Bytes) : Prop := id ∈ s.canceled.map Prod.fst

variable {s : Session} {id : Bytes}

/-- A call either leaves the entries and what was returned as they are, or accepts a submission and
writes its result to the entry of its id, or cancels a live entry. -/
theorem call_cases (s : Session) (c : Call) :
    ((s.call c).accepted = s.accepted ∧ (s.call c).canceled = s.canceled ∧
      (s.call c).manager.orders = s.manager.orders) ∨
    (∃ ord fills, 0 < ord.size ∧ (∀ f ∈ fills, 0 < f.size) ∧ fillTotal fills ≤ ord.size ∧
      (s.call c).accepted = (ord, fills) :: s.accepted ∧ (s.call c).canceled = s.canceled ∧
      ∀ id, (s.call c).manager.orders.lookup id = if id = ord.clid then
          some (((s.manager.orders.lookup ord.clid).getD
            (OrderManager.newState ord)).afterMatch fills)
        else s.manager.orders.lookup id) ∨
    ∃ clid st, s.manager.orders.lookup clid = some st ∧ st.status.isTerminal = false ∧
      (s.call c).accepted = s.accepted ∧ (s.call c).canceled = (clid, st.remaining) :: s.canceled ∧
      ∀ id, (s.call c).manager.orders.lookup id = if id = clid then
          some { st with remaining := 0, status := .CANCELED }
        else s.manager.orders.lookup id := by
  cases c with
  | submit ord =>
    rcases s.manager.submitOrder_cases ord with ⟨_, -, result⟩ |
      ⟨ob, -, -, asked, result, -, -, entries⟩
    · left
      simp [call, result]
    · right; left
      refine ⟨ord, (ob.matchOrder ord).1, asked, fun f hf => (ob.matchOrder_fill ord f hf).1, ?_,
        by simp [call, result], rfl, entries⟩
      have := ob.matchOrder_total ord
      omega
  | cancel clid =>
    rcases s.manager.cancelOrder_cases clid with ⟨-, same⟩ | ⟨st, found, live, size, -, -, orders⟩
    · left
      simp [call, same]
    · right; right
      refine ⟨clid, st, found, live, rfl, by simp [call, size], fun id => ?_⟩
      simp only [call, orders]
      split_ifs with own
      · rw [own, AList.lookup_insert]
      · exact AList.lookup_insert_ne own
  | feed ev => exact .inl ⟨rfl, rfl, rfl⟩

theorem canceledSize_eq_zero (never : ¬ s.WasCanceled id) : s.canceledSize id = 0 :=
  total_eq_zero fun e he same => never (List.mem_map.mpr ⟨e, he, same⟩)

theorem filled_eq_zero (fresh : id ∉ s.ids) : s.filled id = 0 := by
  refine total_eq_zero fun e he same => fresh ?_
  obtain ⟨p, hp, rfl⟩ := List.mem_map.mp he
  exact List.mem_map.mpr ⟨p, hp, same⟩

/-- What the status of an entry says about the fills and cancels of its id. -/
def Phase (s : Session) (id : Bytes) (st : State) : Prop :=
  match st.status with
  | .NEW => False
  | .OPEN => s.filled id = 0 ∧ ¬ s.WasCanceled id
  | .PARTIAL => 0 < s.filled id ∧ s.filled id < st.originalSize ∧ ¬ s.WasCanceled id
  | .FILLED => s.filled id = st.originalSize ∧ ¬ s.WasCanceled id
  | .CANCELED => 0 ≤ s.filled id ∧ s.filled id < st.originalSize ∧ s.WasCanceled id ∧
      s.canceledSize id = st.originalSize - s.filled id

/-- The entry has what the order submitted. -/
def Submitted (st : State) (ord : Order) : Prop :=
  st.clid = ord.clid ∧ st.side = ord.side ∧ st.symbol = ord.symbol ∧ st.price = ord.price ∧
    st.originalSize = ord.size

/-- An entry agrees with what the calls have returned for its id. -/
structure Tracked (s : Session) (id : Bytes) (st : State) : Prop where
  submitted : ∃ p ∈ s.accepted, p.1.clid = id ∧ Submitted st p.1
  asked : 0 < st.originalSize
  remaining : st.remaining = st.originalSize - s.filled id - s.canceledSize id
  phase : s.Phase id st

/-- Every entry agrees with what the calls have returned, which is nothing for an id without an
entry. -/
def Tracks (s : Session) : Prop :=
  ∀ id, (s.manager.orders.lookup id = none → id ∉ s.ids ∧ ¬ s.WasCanceled id) ∧
    ∀ st, s.manager.orders.lookup id = some st → s.Tracked id st

theorem Tracked.frame {s s' : Session} {st : State} (tracked : s.Tracked id st)
    (accepted : s.accepted ⊆ s'.accepted) (filled : s'.filled id = s.filled id)
    (canceled : s'.canceledSize id = s.canceledSize id)
    (was : s'.WasCanceled id ↔ s.WasCanceled id) : s'.Tracked id st := by
  obtain ⟨p, hp, submitted⟩ := tracked.submitted
  refine ⟨⟨p, accepted hp, submitted⟩, tracked.asked, ?_, ?_⟩
  · rw [filled, canceled]
    exact tracked.remaining
  · unfold Phase
    rw [filled, canceled, was]
    exact tracked.phase

theorem tracked_newState {ord : Order} {fills : List Fill} (asked : 0 < ord.size)
    (sizes : ∀ f ∈ fills, 0 < f.size) (most : fillTotal fills ≤ ord.size)
    (submitted : (ord, fills) ∈ s.accepted) (filled : s.filled ord.clid = fillTotal fills)
    (never : ¬ s.WasCanceled ord.clid) :
    s.Tracked ord.clid ((OrderManager.newState ord).afterMatch fills) := by
  have canceled := canceledSize_eq_zero never
  have traded := fillTotal_pos_iff sizes
  unfold State.afterMatch
  split_ifs with none ended
  · subst none
    refine ⟨⟨_, submitted, rfl, rfl, rfl, rfl, rfl, rfl⟩, asked, ?_, ?_, never⟩
    · rw [filled, canceled]
      simp [OrderManager.newState]
    · rw [filled, fillTotal_nil]
  · have whole : fillTotal fills = ord.size := by
      simp only [OrderManager.newState] at ended
      omega
    refine ⟨⟨_, submitted, rfl, rfl, rfl, rfl, rfl, rfl⟩, asked, ?_, filled.trans whole, never⟩
    rw [filled, canceled, whole]
    simp [OrderManager.newState]
  · simp only [OrderManager.newState] at ended
    refine ⟨⟨_, submitted, rfl, rfl, rfl, rfl, rfl, rfl⟩, asked, ?_, ?_, ?_, never⟩
    · rw [filled, canceled]
      simp [OrderManager.newState]
    · rw [filled]
      exact traded.mpr none
    · rw [filled]
      show fillTotal fills < ord.size
      omega

theorem Tracked.cancel {s s' : Session} {st : State} (tracked : s.Tracked id st)
    (live : st.status.isTerminal = false) (accepted : s'.accepted = s.accepted)
    (canceled : s'.canceled = (id, st.remaining) :: s.canceled) :
    s'.Tracked id { st with remaining := 0, status := .CANCELED } := by
  obtain ⟨submitted, asked, remaining, phase⟩ := tracked
  have filled : s'.filled id = s.filled id := by rw [Session.filled, accepted]; rfl
  have more : s'.canceledSize id = st.remaining + s.canceledSize id := by
    simp only [canceledSize, canceled, total_cons, if_true]
  have partly : 0 ≤ s.filled id ∧ s.filled id < st.originalSize ∧ ¬ s.WasCanceled id := by
    unfold Phase at phase
    cases status : st.status <;> simp_all [Status.isTerminal]
    omega
  have none := canceledSize_eq_zero partly.2.2
  refine ⟨by rw [accepted]; exact submitted, asked, ?_, ?_⟩
  · show 0 = st.originalSize - _ - _
    rw [filled, more]
    omega
  · refine ⟨filled ▸ partly.1, filled ▸ partly.2.1, by simp [WasCanceled, canceled], ?_⟩
    show _ = st.originalSize - _
    rw [filled, more]
    omega

/-- A call that adds nothing and changes no entry. -/
theorem Tracks.frame {s' : Session} (tracks : s.Tracks) (accepted : s'.accepted = s.accepted)
    (canceled : s'.canceled = s.canceled) (orders : s'.manager.orders = s.manager.orders) :
    s'.Tracks := by
  intro id
  simp only [ids, WasCanceled, accepted, canceled, orders]
  refine ⟨(tracks id).1, fun st found => ?_⟩
  refine ((tracks id).2 st found).frame (by rw [accepted]; exact List.Subset.refl _) ?_ ?_ ?_
  · rw [filled, accepted]; rfl
  · rw [canceledSize, canceled]; rfl
  · rw [WasCanceled, canceled]; rfl

/-- An accepted order under an id that no order had. -/
theorem Tracks.accept {s' : Session} {ord : Order} {fills : List Fill} (tracks : s.Tracks)
    (asked : 0 < ord.size) (sizes : ∀ f ∈ fills, 0 < f.size) (most : fillTotal fills ≤ ord.size)
    (fresh : ord.clid ∉ s.ids) (accepted : s'.accepted = (ord, fills) :: s.accepted)
    (canceled : s'.canceled = s.canceled)
    (entries : ∀ id, s'.manager.orders.lookup id = if id = ord.clid then
        some (((s.manager.orders.lookup ord.clid).getD (OrderManager.newState ord)).afterMatch
          fills)
      else s.manager.orders.lookup id) : s'.Tracks := by
  have missing : s.manager.orders.lookup ord.clid = none := by
    cases found : s.manager.orders.lookup ord.clid with
    | none => rfl
    | some st =>
      obtain ⟨p, hp, own, -⟩ := ((tracks ord.clid).2 st found).submitted
      exact absurd (List.mem_map.mpr ⟨p, hp, own⟩) fresh
  have filled' : ∀ id, s'.filled id = (if ord.clid = id then fillTotal fills else 0) +
      s.filled id := by
    intro id
    rw [filled, accepted, List.map_cons, total_cons]
    rfl
  have was : ∀ id, s'.WasCanceled id ↔ s.WasCanceled id := by
    intro id
    rw [WasCanceled, canceled]
    rfl
  intro id
  rw [entries]
  by_cases own : id = ord.clid
  · subst own
    refine ⟨by simp, ?_⟩
    rw [if_pos rfl, missing, Option.getD_none]
    rintro _ ⟨⟩
    refine tracked_newState asked sizes most (by simp [accepted]) ?_ ?_
    · rw [filled', if_pos rfl, filled_eq_zero fresh, add_zero]
    · rw [was]
      exact ((tracks ord.clid).1 missing).2
  · rw [if_neg own]
    refine ⟨fun absent => ?_, fun st found => ?_⟩
    · obtain ⟨unknown, never⟩ := (tracks id).1 absent
      refine ⟨?_, by rwa [was]⟩
      simp only [ids, accepted, List.map_cons, List.mem_cons, not_or]
      exact ⟨own, unknown⟩
    · refine ((tracks id).2 st found).frame (by simp [accepted]) ?_ ?_ (was id)
      · rw [filled', if_neg (Ne.symm own), zero_add]
      · rw [canceledSize, canceled]; rfl

/-- A canceled order, which was live. -/
theorem Tracks.cancel {s' : Session} {clid : Bytes} {st : State} (tracks : s.Tracks)
    (found : s.manager.orders.lookup clid = some st) (live : st.status.isTerminal = false)
    (accepted : s'.accepted = s.accepted)
    (canceled : s'.canceled = (clid, st.remaining) :: s.canceled)
    (entries : ∀ id, s'.manager.orders.lookup id = if id = clid then
        some { st with remaining := 0, status := .CANCELED }
      else s.manager.orders.lookup id) : s'.Tracks := by
  intro id
  rw [entries]
  by_cases own : id = clid
  · subst own
    refine ⟨by simp, ?_⟩
    rw [if_pos rfl]
    rintro _ ⟨⟩
    exact ((tracks id).2 st found).cancel live accepted canceled
  · rw [if_neg own]
    have was : s'.WasCanceled id ↔ s.WasCanceled id := by
      simp [WasCanceled, canceled, own]
    refine ⟨fun absent => ?_, fun st found => ?_⟩
    · obtain ⟨unknown, never⟩ := (tracks id).1 absent
      exact ⟨by rw [ids, accepted]; exact unknown, by rwa [was]⟩
    · refine ((tracks id).2 st found).frame (by rw [accepted]; exact List.Subset.refl _) ?_ ?_ was
      · rw [filled, accepted]; rfl
      · rw [canceledSize, canceled, total_cons, if_neg (Ne.symm own), zero_add]
        rfl

/-- The step: a call keeps the session tracked, when the ids accepted so far are distinct. -/
theorem call_tracks (tracks : s.Tracks) (c : Call) (distinct : (s.call c).ids.Nodup) :
    (s.call c).Tracks := by
  rcases s.call_cases c with ⟨accepted, canceled, orders⟩ |
    ⟨ord, fills, asked, sizes, most, accepted, canceled, entries⟩ |
    ⟨clid, st, found, live, accepted, canceled, entries⟩
  · exact tracks.frame accepted canceled orders
  · have fresh : ord.clid ∉ s.ids := by
      simp only [ids, accepted, List.map_cons, List.nodup_cons] at distinct
      exact distinct.1
    exact tracks.accept asked sizes most fresh accepted canceled entries
  · exact tracks.cancel found live accepted canceled entries

theorem ids_of_call (s : Session) (c : Call) : s.ids <:+ (s.call c).ids := by
  rcases s.call_cases c with ⟨accepted, -⟩ | ⟨ord, fills, -, -, -, accepted, -⟩ |
    ⟨clid, st, -, -, accepted, -⟩
  · rw [ids, ids, accepted]
  · rw [ids, ids, accepted, List.map_cons]
    exact List.suffix_cons ..
  · rw [ids, ids, accepted]

/-- The run: a session whose accepted submissions have distinct ids is tracked. -/
theorem calls_track (ob : Option OrderBook) (policy : RiskPolicy) (calls : List Call)
    (distinct : (calls.foldl call (start ob policy)).ids.Nodup) :
    (calls.foldl call (start ob policy)).Tracks := by
  induction calls using List.reverseRecOn with
  | nil =>
    intro id
    refine ⟨fun _ => ⟨by simp [start, ids], by simp [start, WasCanceled]⟩, fun st found => ?_⟩
    simp [start, OrderManager.start] at found
  | append_singleton calls c ih =>
    rw [List.foldl_append, List.foldl_cons, List.foldl_nil] at distinct ⊢
    exact call_tracks (ih (distinct.sublist (ids_of_call _ c).sublist)) c distinct

/-- An entry is what its fills and cancels make it. -/
structure Determined (s : Session) (id : Bytes) (st : State) : Prop where
  submitted : ∃ p ∈ s.accepted, p.1.clid = id ∧ Submitted st p.1
  remaining : st.remaining = st.originalSize - s.filled id - s.canceledSize id
  bounds : 0 ≤ st.remaining ∧ st.remaining ≤ st.originalSize
  isFilled : st.status = .FILLED ↔ s.filled id = st.originalSize
  isCanceled : st.status = .CANCELED ↔ s.WasCanceled id
  isPartial : st.status = .PARTIAL ↔
    0 < s.filled id ∧ s.filled id < st.originalSize ∧ ¬ s.WasCanceled id
  isOpen : st.status = .OPEN ↔ s.filled id = 0 ∧ ¬ s.WasCanceled id

theorem Tracked.determined {st : State} (tracked : s.Tracked id st) : s.Determined id st := by
  obtain ⟨submitted, asked, remaining, phase⟩ := tracked
  have canceled := @canceledSize_eq_zero s id
  unfold Phase at phase
  cases status : st.status <;> simp only [status] at phase
  case OPEN | PARTIAL | FILLED =>
    have never : ¬ s.WasCanceled id := by tauto
    have := canceled never
    refine ⟨submitted, remaining, ⟨by omega, by omega⟩, ?_, ?_, ?_, ?_⟩ <;>
      simp [status, never] <;> omega
  case CANCELED =>
    obtain ⟨nonneg, less, was, size⟩ := phase
    refine ⟨submitted, remaining, ⟨by omega, by omega⟩, ?_, ?_, ?_, ?_⟩ <;>
      simp [status, was]
    omega

/-- An entry that is tracked has some quantity left exactly when it can be canceled. -/
theorem Tracked.live_iff {st : State} (tracked : s.Tracked id st) :
    st.status.isTerminal = false ↔ 0 < st.remaining := by
  obtain ⟨-, asked, remaining, phase⟩ := tracked
  have canceled := @canceledSize_eq_zero s id
  unfold Phase at phase
  cases status : st.status <;> simp only [status, Status.isTerminal] at phase ⊢
  case OPEN | PARTIAL | FILLED =>
    have := canceled (by tauto)
    simp
    omega
  case CANCELED =>
    simp
    omega

end Session

open Session in
/-- After every run of calls whose accepted submissions have distinct ids, each of them has an
entry, each entry is what its fills and cancels make it, and a cancel succeeds exactly on an entry
with some quantity left, which it reports. -/
theorem lifecycle_determined (ob : Option OrderBook) (policy : RiskPolicy) (calls : List Call)
    (distinct : (calls.foldl call (Session.start ob policy)).ids.Nodup) :
    let s := calls.foldl call (Session.start ob policy)
    (∀ id ∈ s.ids, ∃ st, s.manager.orders.lookup id = some st) ∧
    (∀ id st, s.manager.orders.lookup id = some st → s.Determined id st) ∧
    ∀ id size, (s.manager.cancelOrder id).1 = some size ↔
      ∃ st, s.manager.orders.lookup id = some st ∧ 0 < st.remaining ∧ size = st.remaining := by
  intro s
  have tracks := calls_track ob policy calls distinct
  refine ⟨fun id known => ?_, fun id st found => ((tracks id).2 st found).determined,
    fun id size => ?_⟩
  · refine Option.ne_none_iff_exists'.mp fun missing => ?_
    exact ((tracks id).1 missing).1 known
  rcases s.manager.cancelOrder_cases id with ⟨ended, same⟩ | ⟨st, found, live, reported, -⟩
  · rw [same]
    apply iff_of_false (by simp)
    rintro ⟨st, found, left, -⟩
    have := ((tracks id).2 st found).live_iff.mpr left
    simp [found, this] at ended
  · have left := ((tracks id).2 st found).live_iff.mp live
    rw [reported, found]
    constructor
    · rintro ⟨⟩
      exact ⟨st, rfl, left, rfl⟩
    · rintro ⟨_, ⟨⟩, -, rfl⟩
      rfl

/-- Two orders, one of them canceled after a partial fill. -/
theorem lifecycle_determined_on_cancel :
    let calls :
    List Call := [.feed ⟨1, 0, 0, 0, setSymbol (bytes "AAPL"), .finite 100, 7, setSrc []⟩,
      .submit (reusedOrder 10), .cancel (bytes "cli1"),
      .submit ⟨bytes "cli2", .buy, bytes "AAPL", .finite 100, 5⟩]
    let s := calls.foldl Session.call (Session.start (some .empty) {})
    ∀ id st, s.manager.orders.lookup id = some st → s.Determined id st := by
  intro calls s
  exact (lifecycle_determined (some .empty) {} calls (by decide)).2.1

end EtradePipeline
