import EtradePipeline.Gateway.Client

/-! What a `REJ` leaves as it was.  `handle_client` is taken with any manager, of whatever policy
and with a book or without, as its parameter has it. -/

namespace EtradePipeline

/-- A line of a client, or a feed event that the receiver's consumer applies to the book. -/
inductive VenueInput where
  | line (line : Bytes)
  | feed (ev : Event)

/-- An `ORDER` line that asks for an order of that id. -/
def VenueInput.Orders (maxSize : Int64) (clid : Bytes) : VenueInput → Prop
  | .line text => ∃ ord, requestOf maxSize text = some (.order ord) ∧ ord.clid = clid
  | .feed _ => False

namespace Venue

def book : Venue OrderManager → Option OrderBook
  | .inProcess mgr => mgr.ob
  | .snapshots .. | .terminated _ => none

def orders : Venue OrderManager → AList fun _ : Bytes => State
  | .inProcess mgr => mgr.orders
  | .snapshots .. | .terminated _ => ∅

/-- After a line or a feed event. -/
def take (maxSize : Int64) (v : Venue OrderManager) : VenueInput → Venue OrderManager
  | .line line => (v.answer maxSize line).2
  | .feed ev =>
    match v with
    | .inProcess mgr => .inProcess (mgr.feed ev)
    | .snapshots .. | .terminated _ => v

/-- The same book, orders, gauge and counters, but for the counter of rejected orders. -/
structure Unchanged (before after : Venue OrderManager) : Prop where
  book : after.book = before.book
  orders : after.orders = before.orders
  metrics : after.metrics = { before.metrics with orderRejected := after.metrics.orderRejected }

/-- The order of that id is filled or canceled. -/
def Ended (clid : Bytes) : Venue OrderManager → Prop
  | .inProcess mgr => ∃ st, mgr.orders.lookup clid = some st ∧ st.status.isTerminal = true
  | .snapshots .. | .terminated _ => False

end Venue

/-- The gateway's own manager is one of these. -/
def Backend.venue {maxSize : Int64} {maxOpen : UInt64} :
    Backend maxSize maxOpen → Venue OrderManager
  | .inProcess mgr => .inProcess mgr.manager
  | .snapshots read metrics => .snapshots read metrics
  | .terminated metrics => .terminated metrics

theorem Backend.answer_venue {maxSize : Int64} {maxOpen : UInt64} (b : Backend maxSize maxOpen)
    (line : Bytes) :
    (Backend.venue b).answer maxSize line =
      ((b.answer line).1, Backend.venue (b.answer line).2) := by
  unfold Backend.answer Venue.answer
  cases requestOf maxSize line with
  | none => rfl
  | some r =>
    cases b with
    | terminated metrics => cases r <;> rfl
    | inProcess mgr =>
      cases r with
      | refuse clid reason counted => cases counted <;> rfl
      | order ord => rfl
      | cancel clid =>
        simp only [Venue.perform, venue, Manager.cancel, Shared.cancel]
        cases (mgr.manager.cancelOrder clid).1 <;> rfl
    | snapshots read metrics =>
      cases r with
      | refuse clid reason counted => cases counted <;> rfl
      | cancel clid => rfl
      | order ord =>
        simp only [Venue.perform, venue, Venue.fillAtSnapshot]
        cases read ord.symbol with
        | throws => rfl
        | found content =>
          simp only
          cases snapshotFill content ord <;> rfl

namespace Venue

variable {maxSize : Int64} {v : Venue OrderManager} {clid : Bytes}

theorem Unchanged.refl (v : Venue OrderManager) : v.Unchanged v := ⟨rfl, rfl, rfl⟩

theorem unchanged_countRejected (v : Venue OrderManager) : v.Unchanged v.countRejected := by
  cases v <;> exact ⟨rfl, rfl, rfl⟩

theorem perform_rej (v : Venue OrderManager) (r : Request)
    (refused : (v.perform r).1.any Response.isRej = true) : v.Unchanged (v.perform r).2 := by
  cases v with
  | terminated metrics =>
    cases r <;> exact .refl _
  | inProcess mgr =>
    cases r with
    | refuse clid reason counted =>
      cases counted with
      | false => exact .refl _
      | true => exact unchanged_countRejected _
    | order ord =>
      rcases mgr.submitOrder_cases ord with ⟨reason, -, result⟩ | ⟨ob, -, -, -, result, -⟩
      · simp only [perform, OrderManager.submit_eq, result]
        exact unchanged_countRejected (.inProcess mgr)
      · simp [perform, orderAnswers, result, Response.isRej] at refused
    | cancel clid =>
      rcases mgr.cancelOrder_cases clid with ⟨-, result⟩ | ⟨st, -, -, canceled, -⟩
      · simp only [perform, OrderManager.cancel_eq, result]
        exact .refl _
      · simp [perform, canceled, Response.isRej] at refused
  | snapshots read metrics =>
    cases r with
    | refuse clid reason counted =>
      cases counted with
      | false => exact .refl _
      | true => exact unchanged_countRejected _
    | order ord =>
      obtain ⟨filled, -, responses⟩ := @fillAtSnapshot_responses OrderManager read metrics ord
      simp only [perform, responses] at refused
      cases filled <;> simp [Response.isRej] at refused
    | cancel clid => exact .refl _

/-! ### After a cancel -/

theorem ended_of_canceled {size : Int}
    (canceled : (v.perform (.cancel clid)).1 = [.cal clid size]) :
    (v.perform (.cancel clid)).2.Ended clid := by
  cases v with
  | snapshots read metrics | terminated metrics => simp [perform] at canceled
  | inProcess mgr =>
    rcases mgr.cancelOrder_cases clid with ⟨-, result⟩ | ⟨st, -, -, removed, -, -, orders⟩
    · simp [perform, result] at canceled
    · simp only [perform, OrderManager.cancel_eq, removed]
      exact ⟨_, by rw [orders, AList.lookup_insert], rfl⟩

/-- A request but an order of that id leaves it ended. -/
theorem Ended.perform (ended : v.Ended clid) {r : Request}
    (other : ∀ ord, r = .order ord → ord.clid ≠ clid) : (v.perform r).2.Ended clid := by
  cases v with
  | snapshots read metrics | terminated metrics => exact ended.elim
  | inProcess mgr =>
    obtain ⟨st, entry, terminal⟩ := ended
    cases r with
    | refuse id reason counted => cases counted <;> exact ⟨st, entry, terminal⟩
    | order ord =>
      have kept : (mgr.submitOrder ord).2.orders.lookup clid = some st := by
        rcases mgr.submitOrder_cases ord with ⟨reason, -, result⟩ | ⟨ob, -, -, -, -, -, -, orders⟩
        · rw [result]
          exact entry
        · rw [orders, if_neg (other ord rfl).symm, entry]
      exact ⟨st, kept, terminal⟩
    | cancel id =>
      have kept : (mgr.cancelOrder id).2.orders.lookup clid = some st := by
        rcases mgr.cancelOrder_cases id with ⟨-, result⟩ | ⟨found, live, going, -, -, -, orders⟩
        · rw [result]
          exact entry
        · have apart : clid ≠ id := by
            rintro rfl
            rw [entry] at live
            cases live
            rw [terminal] at going
            cases going
          rw [orders, AList.lookup_insert_ne apart, entry]
      simp only [Venue.perform, OrderManager.cancel_eq]
      split <;> exact ⟨st, kept, terminal⟩

theorem Ended.take (ended : v.Ended clid) {i : VenueInput} (other : ¬ i.Orders maxSize clid) :
    (v.take maxSize i).Ended clid := by
  cases i with
  | line line =>
    simp only [Venue.take, answer]
    cases asked : requestOf maxSize line with
    | none => exact ended
    | some r => exact ended.perform fun ord same id => other ⟨ord, same ▸ asked, id⟩
  | feed ev =>
    cases v with
    | inProcess mgr => exact ended
    | snapshots read metrics | terminated metrics => exact ended

theorem Ended.takeAll (later : List VenueInput) (ended : v.Ended clid)
    (others : ∀ i ∈ later, ¬ i.Orders maxSize clid) :
    (later.foldl (Venue.take maxSize) v).Ended clid := by
  induction later generalizing v with
  | nil => exact ended
  | cons i later ih =>
    obtain ⟨other, others⟩ := List.forall_mem_cons.mp others
    exact ih (ended.take other) others

theorem Ended.cancel (ended : v.Ended clid) :
    v.perform (.cancel clid) = ([.rej clid (bytes "not_found_or_filled")], v) := by
  cases v with
  | snapshots read metrics | terminated metrics => exact ended.elim
  | inProcess mgr =>
    obtain ⟨st, entry, terminal⟩ := ended
    simp [Venue.perform, OrderManager.cancelOrder, entry, terminal]

end Venue

/-- A line that is answered by a `REJ` changes nothing but the counter of rejected orders.  After a
successful `CANCEL` every further one of the same id is answered by a `REJ` and changes nothing at
all, whatever else is handled in between but an `ORDER` for that id. -/
theorem rej_changes_nothing (maxSize : Int64) (v : Venue OrderManager) (line : Bytes) :
    ((v.answer maxSize line).1.any Response.isRej = true → v.Unchanged (v.answer maxSize line).2) ∧
    ∀ clid size, requestOf maxSize line = some (.cancel clid) →
      (v.answer maxSize line).1 = [.cal clid size] →
      ∀ later : List VenueInput, (∀ i ∈ later, ¬ i.Orders maxSize clid) →
      ∀ again, requestOf maxSize again = some (.cancel clid) →
        let now := later.foldl (Venue.take maxSize) (v.answer maxSize line).2
        now.answer maxSize again = ([.rej clid (bytes "not_found_or_filled")], now) := by
  constructor
  · intro refused
    unfold Venue.answer at refused ⊢
    cases asked : requestOf maxSize line with
    | none => exact .refl v
    | some r =>
      rw [asked] at refused
      exact v.perform_rej r refused
  · intro clid size asked canceled later others again askedAgain now
    simp only [Venue.answer, asked] at canceled
    have ended : now.Ended clid := by
      simp only [now, Venue.answer, asked]
      exact (Venue.ended_of_canceled canceled).takeAll later others
    simp only [Venue.answer, askedAgain]
    exact ended.cancel

/-- A manager with one open order, which is as many as it allows. -/
def oneOpen : Venue OrderManager :=
  .inProcess ((OrderManager.start (some .empty) ⟨1000, 1⟩).submitOrder
    ⟨bytes "a", .buy, bytes "AAPL", .finite 1, 5⟩).2

/-- The order is canceled, another is taken, and a second `CANCEL` of the first changes nothing. -/
theorem rej_changes_nothing_when_canceled_twice :
    oneOpen.Unchanged (oneOpen.answer 1000 (bytes "ORDER|b|BUY|AAPL|1|5")).2 ∧
    let now := [VenueInput.line (bytes "ORDER|b|BUY|AAPL|1|5")].foldl (Venue.take 1000)
      (oneOpen.answer 1000 (bytes "CANCEL|a")).2
    now.answer 1000 (bytes "CANCEL|a") =
      ([.rej (bytes "a") (bytes "not_found_or_filled")], now) := by
  constructor
  · exact (rej_changes_nothing 1000 oneOpen _).1 (by decide +kernel)
  · refine (rej_changes_nothing 1000 oneOpen _).2 (bytes "a") 5 (by decide +kernel)
      (by decide +kernel) _ ?_ _ (by decide +kernel)
    intro i mem
    rw [List.mem_singleton.mp mem]
    rintro ⟨ord, asked, same⟩
    have other : requestOf 1000 (bytes "ORDER|b|BUY|AAPL|1|5") =
        some (.order ⟨bytes "b", .buy, bytes "AAPL", .finite 1, 5⟩) := by decide +kernel
    rw [other] at asked
    cases asked
    exact absurd same (by decide)

end EtradePipeline
