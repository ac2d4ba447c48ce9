import EtradePipeline.Gateway.Framing
import EtradePipeline.Orders.Sections

/-! How an `ORDER` line is answered.  The gateway sends `ACK` when a line passes its own checks, and
only then calls the order manager, which checks once more: it rejects the order when the limit on
open orders is reached, and then the line is answered by both.  Other threads act between the
acknowledgement and the manager's check and between the sections of the manager's work. -/

namespace EtradePipeline

open Kit.Transition

/-! ### The thread of a client -/

/-- What is added to the counters of accepted and of rejected orders. -/
structure Counts where
  accepted : UInt64 := 0
  rejected : UInt64 := 0
  deriving DecidableEq

/-- With what a step adds that leads from the one to the other metrics. -/
def Counts.add (c : Counts) (before after : Metrics) : Counts where
  accepted := c.accepted + (after.orderAccepted - before.orderAccepted)
  rejected := c.rejected + (after.orderRejected - before.orderRejected)

/-- A line that was answered, with what its thread has counted for it. -/
structure Handled where
  line : Bytes
  responses : List Response
  counts : Counts
  deriving DecidableEq

/-- Where the thread is: at the top of a loop, behind the acknowledgement of an order, in
`submit_order` with what this has counted so far, or behind the receive loop. -/
inductive Progress where
  | reading
  | acked (line : Bytes) (ord : Order)
  | submitting (line : Bytes) (ord : Order) (stage : Stage) (counts : Counts)
  | left

/-- The line that the thread works on. -/
def Progress.line : Progress → Option Bytes
  | .reading | .left => none
  | .acked line _ | .submitting line .. => some line

/-- The thread of a client, with the record of what it has answered.  `unread` is the part of the
client's stream that no `recv` has brought. -/
structure ClientThread (maxSize : Int64) (maxOpen : UInt64) where
  unread : Bytes
  readbuf : Bytes
  progress : Progress
  handled : List Handled
  backend : Backend maxSize maxOpen

/-- What the thread does, up to a point where others may act, or what others do. -/
inductive ClientAction (maxSize : Int64) (maxOpen : UInt64) where
  | recv (chunk : Chunk)
  | take
  | submit
  | advance
  | leave
  | others (now : Backend maxSize maxOpen)

variable {maxSize : Int64} {maxOpen : UInt64}

theorem OrderManager.nextSection_keeps {m m' : OrderManager} {ord : Order} {stage stage' : Stage}
    (next : m.nextSection ord stage = some (m', stage')) :
    m'.ob.isSome = m.ob.isSome ∧ m'.policy = m.policy := by
  cases stage with
  | checked | matched fills | updated fills =>
    cases next
    exact ⟨rfl, rfl⟩
  | inserted =>
    cases next
    refine ⟨?_, matchBook_policy⟩
    unfold matchBook
    split
    · rfl
    · rename_i ob attached
      rw [attached]
      rfl
  | rejected reason | returned fills => cases next

/-- The section of `submit_order` that follows a stage. -/
def Shared.nextSection (s : Shared maxSize maxOpen) (ord : Order) (stage : Stage) :
    Option (Shared maxSize maxOpen × Stage) :=
  match next : s.manager.nextSection ord stage with
  | none => none
  | some (manager, stage) =>
    some (⟨manager, (OrderManager.nextSection_keeps next).1.trans s.attached,
      (OrderManager.nextSection_keeps next).2.trans s.policy⟩, stage)

theorem Shared.nextSection_eq_some {s s' : Shared maxSize maxOpen} {ord : Order}
    {stage stage' : Stage} (next : s.nextSection ord stage = some (s', stage')) :
    s.manager.nextSection ord stage = some (s'.manager, stage') := by
  unfold Shared.nextSection at next
  split at next <;> cases next
  assumption

theorem Shared.exists_nextSection {s : Shared maxSize maxOpen} {m : OrderManager} {ord : Order}
    {stage stage' : Stage} (next : s.manager.nextSection ord stage = some (m, stage')) :
    ∃ s' : Shared maxSize maxOpen, s'.manager = m ∧
      s.nextSection ord stage = some (s', stage') := by
  unfold Shared.nextSection
  split
  · rename_i none
    rw [next] at none
    cases none
  · rename_i found
    cases next.symm.trans found
    exact ⟨_, rfl, rfl⟩

namespace ClientThread

def start (backend : Backend maxSize maxOpen) (stream : Bytes) : ClientThread maxSize maxOpen :=
  ⟨stream, [], .reading, [], backend⟩

/-- The thread when it has sent the last response to a line. -/
def finish (t : ClientThread maxSize maxOpen) (line : Bytes) (responses : List Response)
    (counts : Counts) (backend : Backend maxSize maxOpen) : ClientThread maxSize maxOpen :=
  { t with
    progress := .reading
    handled := t.handled ++
      [⟨line, responses, counts.add t.backend.metrics backend.metrics⟩]
    backend }

/-- A pass of the inner loop, up to the acknowledgement when the line is an order. -/
def take (t : ClientThread maxSize maxOpen) : Option (ClientThread maxSize maxOpen) :=
  match t.progress, Client.nextLine t.readbuf with
  | .reading, some (line, readbuf) =>
    let t := { t with readbuf }
    if line = [] then some t
    else
      match requestOf maxSize line with
      | some (.order ord) => some { t with progress := .acked line ord }
      | _ => some (t.finish line (t.backend.answer line).1 {} (t.backend.answer line).2)
  | _, _ => none

/-- Behind the acknowledgement: the check of `submit_order`, or the snapshot. -/
def submit (t : ClientThread maxSize maxOpen) : Option (ClientThread maxSize maxOpen) :=
  match t.progress, t.backend with
  | .acked line ord, .inProcess mgr =>
    match mgr.manager.checkOrder ord with
    | some reason =>
      some (t.finish line (orderAnswers ord ⟨false, reason, []⟩) {} (.inProcess mgr.countRejected))
    | none => some { t with progress := .submitting line ord .checked {} }
  | .acked line ord, .snapshots read metrics =>
    let (responses, now) : List Response × Backend maxSize maxOpen :=
      Venue.fillAtSnapshot read metrics ord
    some (t.finish line responses {} now)
  | _, _ => none

/-- The next section of `submit_order`. -/
def advance (t : ClientThread maxSize maxOpen) : Option (ClientThread maxSize maxOpen) :=
  match t.progress, t.backend with
  | .submitting line ord stage counts, .inProcess mgr =>
    (mgr.nextSection ord stage).map fun (mgr', stage) =>
      match stage.result with
      | some r => t.finish line (orderAnswers ord r) counts (.inProcess mgr')
      | none => { t with
          progress := .submitting line ord stage
            (counts.add mgr.manager.metrics mgr'.manager.metrics)
          backend := .inProcess mgr' }
  | _, _ => none

/-- The thread after an action, when it is enabled.  It leaves the receive loop when the client
closes the connection, `recv` fails or the stop flag is set. -/
def step (t : ClientThread maxSize maxOpen) :
    ClientAction maxSize maxOpen → Option (ClientThread maxSize maxOpen)
  | .recv chunk =>
    match t.progress, Client.nextLine t.readbuf with
    | .reading, none =>
      if t.backend.Running ∧ chunk.data <+: t.unread then some { t with
        unread := t.unread.drop chunk.data.length
        readbuf := t.readbuf ++ chunk.data }
      else none
    | _, _ => none
  | .take => if t.backend.Running then t.take else none
  | .submit => t.submit
  | .advance => t.advance
  | .leave =>
    match t.progress, Client.nextLine t.readbuf with
    | .reading, none => if t.backend.Running then some { t with progress := .left } else none
    | _, _ => none
  | .others now => if t.backend.Leads now then some { t with backend := now } else none

/-- What an action can do, one constructor for each outcome. -/
inductive Steps (t : ClientThread maxSize maxOpen) :
    ClientAction maxSize maxOpen → ClientThread maxSize maxOpen → Prop
  | received (chunk : Chunk) (rest : Bytes) (running : t.backend.Running)
      (reading : t.progress = .reading) (sent : t.unread = chunk.data ++ rest) :
      Steps t (.recv chunk) { t with unread := rest, readbuf := t.readbuf ++ chunk.data }
  | skipped (readbuf : Bytes) (running : t.backend.Running) (reading : t.progress = .reading)
      (next : Client.nextLine t.readbuf = some ([], readbuf)) : Steps t .take { t with readbuf }
  | answered (line readbuf : Bytes) (running : t.backend.Running) (reading : t.progress = .reading)
      (next : Client.nextLine t.readbuf = some (line, readbuf)) (nonempty : line ≠ [])
      (other : ∀ ord, requestOf maxSize line ≠ some (.order ord)) :
      Steps t .take ({ t with readbuf }.finish line (t.backend.answer line).1 {}
        (t.backend.answer line).2)
  | acked (line readbuf : Bytes) (ord : Order) (running : t.backend.Running)
      (reading : t.progress = .reading)
      (next : Client.nextLine t.readbuf = some (line, readbuf)) (nonempty : line ≠ [])
      (asked : requestOf maxSize line = some (.order ord)) :
      Steps t .take { t with readbuf, progress := .acked line ord }
  | rejected (line reason : Bytes) (ord : Order) (mgr : Shared maxSize maxOpen)
      (at_ : t.progress = .acked line ord) (with_ : t.backend = .inProcess mgr)
      (failed : mgr.manager.checkOrder ord = some reason) :
      Steps t .submit (t.finish line [.ack ord.clid, .rej ord.clid reason] {}
        (.inProcess mgr.countRejected))
  | checked (line : Bytes) (ord : Order) (mgr : Shared maxSize maxOpen)
      (at_ : t.progress = .acked line ord) (with_ : t.backend = .inProcess mgr)
      (passed : mgr.manager.checkOrder ord = none) :
      Steps t .submit { t with progress := .submitting line ord .checked {} }
  | looked (line : Bytes) (ord : Order) (read : Bytes → SnapshotFile) (metrics : Metrics)
      (at_ : t.progress = .acked line ord) (with_ : t.backend = .snapshots read metrics) :
      Steps t .submit (t.finish line (t.backend.perform (.order ord)).1 {}
        (t.backend.perform (.order ord)).2)
  | advanced (line : Bytes) (ord : Order) (stage stage' : Stage) (counts : Counts)
      (mgr mgr' : Shared maxSize maxOpen) (at_ : t.progress = .submitting line ord stage counts)
      (with_ : t.backend = .inProcess mgr)
      (next : mgr.manager.nextSection ord stage = some (mgr'.manager, stage'))
      (going : stage'.result = none) :
      Steps t .advance { t with
        progress := .submitting line ord stage'
          (counts.add mgr.manager.metrics mgr'.manager.metrics)
        backend := .inProcess mgr' }
  | returned (line : Bytes) (ord : Order) (stage stage' : Stage) (counts : Counts)
    (r : SubmitResult)
      (mgr mgr' : Shared maxSize maxOpen) (at_ : t.progress = .submitting line ord stage counts)
      (with_ : t.backend = .inProcess mgr)
      (next : mgr.manager.nextSection ord stage = some (mgr'.manager, stage'))
      (ended : stage'.result = some r) :
      Steps t .advance (t.finish line (orderAnswers ord r) counts (.inProcess mgr'))
  | left (running : t.backend.Running) (reading : t.progress = .reading) :
      Steps t .leave { t with progress := .left }
  | others (now : Backend maxSize maxOpen) (leads : t.backend.Leads now) :
      Steps t (.others now) { t with backend := now }

variable {t t' : ClientThread maxSize maxOpen} {a : ClientAction maxSize maxOpen}

/-- The inversion of a step. -/
theorem steps_of_step (stepped : t.step a = some t') : t.Steps a t' := by
  cases a with
  | recv chunk =>
    simp only [step] at stepped
    split at stepped
    · rename_i reading done
      split_ifs at stepped with possible
      obtain ⟨running, rest, sent⟩ := possible
      cases stepped
      rw [← sent, List.drop_left]
      exact .received chunk rest running reading sent.symm
    · cases stepped
  | take =>
    simp only [step] at stepped
    split_ifs at stepped with running
    unfold take at stepped
    split at stepped
    · rename_i line readbuf reading next
      simp only at stepped
      split_ifs at stepped with empty
      · cases stepped
        exact .skipped readbuf running reading (empty ▸ next)
      · split at stepped <;> cases stepped
        · exact .acked line readbuf _ running reading next empty ‹_›
        · exact .answered line readbuf running reading next empty ‹_›
    · cases stepped
  | submit =>
    simp only [step, submit] at stepped
    split at stepped
    · rename_i line ord mgr at_ with_
      split at stepped <;> cases stepped
      · exact .rejected line _ ord mgr at_ with_ ‹_›
      · exact .checked line ord mgr at_ with_ ‹_›
    · rename_i line ord read metrics at_ with_
      have looked := Steps.looked line ord read metrics at_ with_
      rw [with_] at looked
      cases stepped
      exact looked
    · cases stepped
  | advance =>
    simp only [step, advance] at stepped
    split at stepped
    · rename_i line ord stage counts mgr at_ with_
      obtain ⟨⟨mgr', stage'⟩, next, moved⟩ := Option.map_eq_some_iff.mp stepped
      have next := Shared.nextSection_eq_some next
      simp only at moved
      split at moved <;> cases moved
      · exact .returned line ord stage stage' counts _ mgr mgr' at_ with_ next ‹_›
      · exact .advanced line ord stage stage' counts mgr mgr' at_ with_ next ‹_›
    · cases stepped
  | leave =>
    simp only [step] at stepped
    split at stepped
    · rename_i reading done
      split_ifs at stepped with running
      cases stepped
      exact .left running reading
    · cases stepped
  | others now =>
    obtain ⟨leads, made⟩ := Option.ite_none_right_eq_some.mp stepped
    cases made
    exact .others now leads

end ClientThread

/-! ### What is claimed of an answer -/

/-- One of `ACK` and `REJ` was sent, fills only after an `ACK`, and the line is counted as the
answer says. -/
structure Handled.Exclusive (x : Handled) : Prop where
  one : x.responses.countP Response.isAck + x.responses.countP Response.isRej = 1
  fills : ∀ earlier r later, x.responses = earlier ++ r :: later → r.isFill = true →
    ∃ ack ∈ earlier, ack.isAck = true
  accepted : (∃ r ∈ x.responses, r.isAck = true) → x.counts = ⟨1, 0⟩
  rejected : (∃ r ∈ x.responses, r.isRej = true) → x.counts = ⟨0, 1⟩

/-- An `ACK` with fills behind it, counted as accepted. -/
theorem exclusive_of_ack (line clid : Bytes) (fills : List Fill) :
    Handled.Exclusive ⟨line, .ack clid :: fills.map .fill, ⟨1, 0⟩⟩ where
  one := by
    have acks : (fills.map Response.fill).countP Response.isAck = 0 := by
      rw [List.countP_map]
      exact List.countP_eq_zero.mpr fun _ _ => Bool.false_ne_true
    have rejs : (fills.map Response.fill).countP Response.isRej = 0 := by
      rw [List.countP_map]
      exact List.countP_eq_zero.mpr fun _ _ => Bool.false_ne_true
    simp only [List.countP_cons, acks, rejs]
    rfl
  fills := by
    intro earlier r later sent filled
    cases earlier with
    | nil =>
      obtain ⟨rfl, -⟩ := List.cons.inj sent
      simp [Response.isFill] at filled
    | cons first earlier =>
      obtain ⟨rfl, -⟩ := List.cons.inj sent
      exact ⟨_, List.mem_cons_self, rfl⟩
  accepted := fun _ => rfl
  rejected := by
    rintro ⟨r, member, isRej⟩
    rcases List.mem_cons.mp member with rfl | member
    · simp [Response.isRej] at isRej
    · obtain ⟨f, -, rfl⟩ := List.mem_map.mp member
      simp [Response.isRej] at isRej

theorem exclusive_of_rej (line clid reason : Bytes) :
    Handled.Exclusive ⟨line, [.rej clid reason], ⟨0, 1⟩⟩ where
  one := rfl
  fills := by
    intro earlier r later sent filled
    have member : r ∈ [Response.rej clid reason] := by
      rw [show [Response.rej clid reason] = _ from sent]
      simp
    rw [List.mem_singleton.mp member] at filled
    simp [Response.isFill] at filled
  accepted := by simp [Response.isAck]
  rejected := fun _ => rfl

/-- As many orders are open as the policy allows. -/
def Backend.Full : Backend maxSize maxOpen → Prop
  | .inProcess mgr => 0 < maxOpen ∧ maxOpen.toNat ≤ mgr.manager.openOrderCount
  | .snapshots .. | .terminated _ => False

instance : ∀ b : Backend maxSize maxOpen, Decidable b.Full
  | .inProcess _ => inferInstanceAs (Decidable (_ ∧ _))
  | .snapshots .. | .terminated _ => inferInstanceAs (Decidable False)

namespace ClientThread

/-- The lines of the stream that are not answered yet. -/
def pending (t : ClientThread maxSize maxOpen) : List Bytes :=
  t.progress.line.toList ++ lines (t.readbuf ++ t.unread)

/-- The thread answers no more lines. -/
def Over (t : ClientThread maxSize maxOpen) : Prop := t.progress = .left ∨ ¬ t.backend.Running

/-- The lines of the stream are answered in order, each `ORDER` line by one of `ACK` and `REJ` and
counted so, and none is without an answer when the thread is over. -/
structure Exclusive (stream : Bytes) (t : ClientThread maxSize maxOpen) : Prop where
  order : t.handled.map Handled.line ++ t.pending = lines stream
  handled : ∀ x ∈ t.handled, IsOrderLine x.line → x.Exclusive
  finished : t.Over → ∀ line ∈ t.pending, ¬ IsOrderLine line

/-- The thread reads a snapshot, and `std::filesystem::exists` throws. -/
def Throws (t : ClientThread maxSize maxOpen) : Prop :=
  match t.progress, t.backend with
  | .acked _ ord, .snapshots read _ => read ord.symbol = .throws
  | _, _ => False

instance (t : ClientThread maxSize maxOpen) : Decidable t.Throws :=
  match at_ : t.progress, with_ : t.backend with
  | .acked _ ord, .snapshots read _ =>
    decidable_of_iff (read ord.symbol = .throws) (by rw [Throws, at_, with_])
  | .acked .., .inProcess _ | .acked .., .terminated _ | .reading, _ | .submitting ..,
    _ | .left, _ =>
    isFalse (by simp [Throws, at_, with_])

/-- The check of `submit_order` finds room for an open order, and neither the thread nor the process
ends while an `ORDER` line waits. -/
def Orderly (t : ClientThread maxSize maxOpen) : ClientAction maxSize maxOpen → Prop
  | .submit =>
    ¬ t.backend.Full ∧ (t.Throws → ∀ line ∈ lines (t.readbuf ++ t.unread), ¬ IsOrderLine line)
  | .leave => ∀ line ∈ t.pending, ¬ IsOrderLine line
  | .others now => ¬ now.Running → ∀ line ∈ t.pending, ¬ IsOrderLine line
  | .recv _ | .take | .advance => True

instance (t : ClientThread maxSize maxOpen) :
    ∀ a : ClientAction maxSize maxOpen, Decidable (t.Orderly a)
  | .submit => inferInstanceAs (Decidable (_ ∧ (_ → _)))
  | .leave => inferInstanceAs (Decidable (∀ line ∈ t.pending, ¬ IsOrderLine line))
  | .others now => inferInstanceAs (Decidable (¬ now.Running → _))
  | .recv _ | .take | .advance => inferInstanceAs (Decidable True)

end ClientThread

/-! ### One line -/

theorem Shared.checkOrder_eq_none_iff (mgr : Shared maxSize maxOpen) {ord : Order}
    (positive : 0 < ord.size) (allowed : ord.size ≤ maxSize.toInt) :
    mgr.manager.checkOrder ord = none ↔ ¬ Backend.Full (.inProcess mgr) := by
  rw [OrderManager.checkOrder_eq_none, mgr.policy]
  simp [Backend.Full, positive, allowed, mgr.attached]

namespace Counts

@[simp] theorem add_same (c : Counts) (metrics : Metrics) : c.add metrics metrics = c := by
  simp [add]

theorem add_add (c : Counts) (first second third : Metrics) :
    (c.add first second).add second third = c.add first third := by
  simp only [add, mk.injEq]
  constructor <;> grind

theorem add_accepted {before after : Metrics}
    (accepted : after.orderAccepted = before.orderAccepted + 1)
    (rejected : after.orderRejected = before.orderRejected) :
    Counts.add {} before after = ⟨1, 0⟩ := by
  simp only [add, mk.injEq, accepted, rejected]
  constructor <;> grind

theorem add_rejected {before after : Metrics}
    (rejected : after.orderRejected = before.orderRejected + 1)
    (accepted : after.orderAccepted = before.orderAccepted) :
    Counts.add {} before after = ⟨0, 1⟩ := by
  simp only [add, mk.injEq, accepted, rejected]
  constructor <;> grind

end Counts

/-- A section counts nothing but the accepted order, and this at the end. -/
theorem OrderManager.nextSection_counts {m m' : OrderManager} {ord : Order} {stage stage' : Stage}
    (next : m.nextSection ord stage = some (m', stage')) :
    m'.metrics.orderRejected = m.metrics.orderRejected ∧
    ((stage'.result = none ∧ m'.metrics.orderAccepted = m.metrics.orderAccepted) ∨
      ∃ fills, stage'.result = some ⟨true, [], fills⟩ ∧
        m'.metrics.orderAccepted = m.metrics.orderAccepted + 1) := by
  cases stage with
  | checked | matched fills =>
    cases next
    exact ⟨rfl, .inl ⟨rfl, rfl⟩⟩
  | inserted =>
    cases next
    have metrics : (m.matchBook ord).2.metrics = m.metrics := by
      unfold matchBook
      split <;> rfl
    rw [metrics]
    exact ⟨rfl, .inl ⟨rfl, rfl⟩⟩
  | updated fills =>
    cases next
    exact ⟨rfl, .inr ⟨fills, rfl, rfl⟩⟩
  | rejected reason | returned fills => cases next

/-- A line that asks for no order leaves the process running. -/
theorem Backend.running_of_other {b : Backend maxSize maxOpen} {line : Bytes} (running : b.Running)
    (other : ∀ ord, requestOf maxSize line ≠ some (.order ord)) : (b.answer line).2.Running := by
  unfold answer Venue.answer
  cases asked : requestOf maxSize line with
  | none => exact running
  | some r =>
    cases r with
    | order ord => exact absurd asked (other ord)
    | refuse clid reason counted => cases b <;> cases counted <;> exact running
    | cancel clid =>
      cases b with
      | snapshots read metrics | terminated metrics => exact running
      | inProcess mgr =>
        simp only [Venue.perform]
        split <;> trivial

/-- An `ORDER` line that asks for no order is refused. -/
theorem Backend.refused_of_other {b : Backend maxSize maxOpen} {line : Bytes} (running : b.Running)
    (isOrder : IsOrderLine line) (other : ∀ ord, requestOf maxSize line ≠ some (.order ord)) :
    Handled.Exclusive ⟨line, (b.answer line).1,
      Counts.add {} b.metrics (b.answer line).2.metrics⟩ := by
  obtain ⟨clid, reason, refused⟩ := (requestOf_cases isOrder).resolve_right
    fun ⟨ord, asked, _⟩ => other ord asked
  have counted : (b.answer line).2 = b.countRejected ∧ (b.answer line).1 = [.rej clid reason] := by
    simp only [answer, Venue.answer, refused, Venue.perform]
    cases b with
    | inProcess mgr | snapshots read metrics => exact ⟨rfl, rfl⟩
    | terminated metrics => exact running.elim
  have rejected : b.countRejected.metrics.orderRejected = b.metrics.orderRejected + 1 ∧
      b.countRejected.metrics.orderAccepted = b.metrics.orderAccepted := by
    cases b with
    | inProcess mgr | snapshots read metrics => exact ⟨rfl, rfl⟩
    | terminated metrics => exact running.elim
  rw [counted.1, counted.2, Counts.add_rejected rejected.1 rejected.2]
  exact exclusive_of_rej line clid reason

/-- Without a manager an order is acknowledged and counted, and the process ends when the lookup of
the snapshot throws. -/
theorem fillAtSnapshot_spec (read : Bytes → SnapshotFile) (metrics : Metrics) (ord : Order)
    (line : Bytes) :
    let filled : List Response × Backend maxSize maxOpen := Venue.fillAtSnapshot read metrics ord
    Handled.Exclusive ⟨line, filled.1, Counts.add {} metrics filled.2.metrics⟩ ∧
      (filled.2.Running ↔ read ord.symbol ≠ .throws) := by
  have acked : ∀ (fills : List Fill) (after : Metrics),
      after.orderAccepted = metrics.orderAccepted + 1 →
        after.orderRejected = metrics.orderRejected →
      Handled.Exclusive ⟨line, .ack ord.clid :: fills.map .fill, Counts.add {} metrics after⟩ :=
    fun fills after accepted rejected =>
      Counts.add_accepted accepted rejected ▸ exclusive_of_ack line ord.clid fills
  simp only [Venue.fillAtSnapshot]
  cases found : read ord.symbol with
  | throws => exact ⟨acked [] _ rfl rfl, iff_of_false id (by simp)⟩
  | found content =>
    simp only
    split
    · exact ⟨acked [] _ rfl rfl, iff_of_true trivial (by simp)⟩
    · rename_i f _
      exact ⟨acked [f] _ rfl rfl, iff_of_true trivial (by simp)⟩

/-! ### Steps -/

namespace ClientThread

/-- What every step keeps: an order in progress is the one of its line, and nothing is counted for
it until `submit_order` ends. -/
def Consistent (t : ClientThread maxSize maxOpen) : Prop :=
  match t.progress with
  | .reading | .left => True
  | .acked line ord => requestOf maxSize line = some (.order ord)
  | .submitting line ord _ counts => requestOf maxSize line = some (.order ord) ∧ counts = {}

variable {t t' : ClientThread maxSize maxOpen} {a : ClientAction maxSize maxOpen} {stream : Bytes}

theorem consistent_step (consistent : t.Consistent) (stepped : t.step a = some t') :
    t'.Consistent := by
  cases steps_of_step stepped with
  | received | skipped | others => exact consistent
  | answered | rejected | looked | returned => trivial
  | left => trivial
  | acked line readbuf ord running reading next nonempty asked => exact asked
  | checked line ord mgr at_ =>
    unfold Consistent at consistent
    rw [at_] at consistent
    exact ⟨consistent, rfl⟩
  | advanced line ord stage stage' counts mgr mgr' at_ with_ next going =>
    unfold Consistent at consistent
    rw [at_] at consistent
    obtain ⟨asked, rfl⟩ := consistent
    obtain ⟨rejected, ⟨-, accepted⟩ | ⟨fills, ended, -⟩⟩ := OrderManager.nextSection_counts next
    · exact ⟨asked, by simp [Counts.add, rejected, accepted]⟩
    · rw [going] at ended
      cases ended

/-- Steps take the lines of the stream in order and lose none. -/
theorem lines_step (stepped : t.step a = some t') :
    t'.handled.map Handled.line ++ t'.pending = t.handled.map Handled.line ++ t.pending := by
  cases steps_of_step stepped with
  | received chunk rest running reading sent => simp only [pending, sent, List.append_assoc]
  | skipped readbuf running reading next =>
    simp [pending, reading, Progress.line, Client.lines_of_nextLine next]
  | answered line readbuf running reading next nonempty =>
    simp [pending, finish, reading, Progress.line, Client.lines_of_nextLine next, nonempty]
  | acked line readbuf ord running reading next nonempty =>
    simp [pending, reading, Progress.line, Client.lines_of_nextLine next, nonempty]
  | rejected line reason ord mgr at_ | looked line ord read metrics at_ =>
    simp [pending, finish, at_, Progress.line]
  | returned line ord stage stage' counts r mgr mgr' at_ =>
    simp [pending, finish, at_, Progress.line]
  | checked line ord mgr at_ | advanced line ord stage stage' counts mgr mgr' at_ =>
    simp only [pending, at_, Progress.line]
  | left running reading => simp only [pending, reading, Progress.line]
  | others => rfl

/-- What the last response to a line must be, and what must not wait then. -/
theorem exclusive_finish_iff {line : Bytes} {responses : List Response} {counts : Counts}
    {now : Backend maxSize maxOpen} (handled : ∀ x ∈ t.handled, IsOrderLine x.line → x.Exclusive)
    (order : (t.finish line responses counts now).handled.map Handled.line ++
      (t.finish line responses counts now).pending = lines stream) :
    (t.finish line responses counts now).Exclusive stream ↔
      (IsOrderLine line →
        Handled.Exclusive ⟨line, responses, counts.add t.backend.metrics now.metrics⟩) ∧
      (¬ now.Running → ∀ line ∈ lines (t.readbuf ++ t.unread), ¬ IsOrderLine line) := by
  constructor
  · rintro ⟨-, all, finished⟩
    exact ⟨fun isOrder => all _ (List.mem_append_right _ (List.mem_singleton_self _)) isOrder,
      fun ended => finished (.inr ended)⟩
  · rintro ⟨last, waiting⟩
    refine ⟨order, List.forall_mem_append.mpr ⟨handled, List.forall_mem_singleton.mpr last⟩, ?_⟩
    rintro (gone | ended)
    · cases gone
    · exact waiting ended

/-- A thread that goes on without an answer. -/
theorem Exclusive.goes_on (exclusive : t.Exclusive stream) (stepped : t.step a = some t')
    (handled : t'.handled = t.handled) (going : ¬ t'.Over) : t'.Exclusive stream :=
  ⟨(lines_step stepped).trans exclusive.order, handled ▸ exclusive.handled,
    fun done => absurd done going⟩

/-- A step leaves the lines answered well exactly when it is orderly. -/
theorem exclusive_step_iff (consistent : t.Consistent) (exclusive : t.Exclusive stream)
    (stepped : t.step a = some t') : t'.Exclusive stream ↔ t.Orderly a := by
  have order := (lines_step stepped).trans exclusive.order
  have full : ∀ {line ord mgr}, t.progress = .acked line ord → t.backend = .inProcess mgr →
      (mgr.manager.checkOrder ord = none ↔ ¬ t.backend.Full) := by
    intro line ord mgr at_ with_
    unfold Consistent at consistent
    rw [at_] at consistent
    obtain ⟨_, _, refused⟩ | ⟨ord', asked, positive, allowed⟩ :=
      requestOf_cases (isOrderLine_of_order consistent)
    · rw [consistent] at refused
      cases refused
    · cases consistent.symm.trans asked
      rw [with_]
      exact mgr.checkOrder_eq_none_iff positive allowed
  cases steps_of_step stepped with
  | received chunk rest running reading =>
    refine iff_of_true (exclusive.goes_on stepped rfl ?_) trivial
    simp [Over, reading, running]
  | skipped readbuf running reading =>
    refine iff_of_true (exclusive.goes_on stepped rfl ?_) trivial
    simp [Over, reading, running]
  | acked line readbuf ord running =>
    refine iff_of_true (exclusive.goes_on stepped rfl ?_) trivial
    simp [Over, running]
  | answered line readbuf running reading next nonempty other =>
    have last := @exclusive_finish_iff _ _ { t with readbuf } stream _ _ _ _ exclusive.handled order
    refine iff_of_true (last.mpr ⟨?_, ?_⟩) trivial
    · exact fun isOrder => Backend.refused_of_other running isOrder other
    · exact fun ended => absurd (Backend.running_of_other running other) ended
  | rejected line reason ord mgr at_ with_ failed =>
    -- The line has got its `ACK`, and now gets a `REJ`.
    refine iff_of_false (fun answered => ?_) (fun orderly => ?_)
    · unfold Consistent at consistent
      rw [at_] at consistent
      obtain ⟨last, -⟩ := (exclusive_finish_iff exclusive.handled order).mp answered
      have both := (last (isOrderLine_of_order consistent)).one
      exact absurd both (by simp [Response.isAck, Response.isRej])
    · rw [(full at_ with_).mpr orderly.1] at failed
      cases failed
  | checked line ord mgr at_ with_ passed =>
    refine iff_of_true (exclusive.goes_on stepped rfl ?_) ⟨(full at_ with_).mp passed, ?_⟩
    · simp [Over, with_, Venue.Running]
    · intro throws
      simp [Throws, at_, with_] at throws
  | looked line ord read metrics at_ with_ =>
    have spec := @fillAtSnapshot_spec maxSize maxOpen read metrics ord line
    rw [exclusive_finish_iff exclusive.handled order, with_]
    have throws : t.Throws ↔ read ord.symbol = .throws := by rw [Throws, at_, with_]
    have room : ¬ Backend.Full (.snapshots read metrics : Backend maxSize maxOpen) := id
    simp only [Orderly, with_, room, not_false_iff, true_and, throws]
    have running : ¬ (Venue.perform (.snapshots read metrics : Backend maxSize maxOpen)
        (.order ord)).2.Running ↔ read ord.symbol = .throws := by
      rw [← not_iff_not, not_not]
      exact spec.2
    rw [running]
    exact and_iff_right fun _ => spec.1
  | advanced line ord stage stage' counts mgr mgr' at_ with_ next going =>
    refine iff_of_true (exclusive.goes_on stepped rfl ?_) trivial
    simp [Over, Venue.Running]
  | returned line ord stage stage' counts r mgr mgr' at_ with_ next ended =>
    refine iff_of_true ((exclusive_finish_iff exclusive.handled order).mpr ⟨fun _ => ?_, ?_⟩)
      trivial
    · unfold Consistent at consistent
      rw [at_] at consistent
      obtain ⟨-, rfl⟩ := consistent
      obtain ⟨rejected, ⟨going, -⟩ | ⟨fills, result, accepted⟩⟩ :=
        OrderManager.nextSection_counts next
      · rw [going] at ended
        cases ended
      · cases result.symm.trans ended
        have counted : Counts.add {} mgr.manager.metrics mgr'.manager.metrics = ⟨1, 0⟩ :=
          Counts.add_accepted accepted rejected
        rw [with_]
        exact counted ▸ exclusive_of_ack line ord.clid fills
    · exact fun ended => absurd trivial ended
  | left running reading =>
    refine ⟨fun after => ?_, fun none => ⟨order, exclusive.handled, fun _ => ?_⟩⟩
    · have waiting := after.finished (.inl rfl)
      simpa only [Orderly, pending, reading, Progress.line] using waiting
    · simpa only [Orderly, pending, reading, Progress.line] using none
  | others now leads =>
    refine ⟨fun after ended => after.finished (.inr ended), fun none =>
      ⟨order, exclusive.handled, ?_⟩⟩
    rintro (gone | ended)
    · exact exclusive.finished (.inl gone)
    · exact none ended

end ClientThread

/-! ### A line that nothing interrupts -/

/-- What the thread does itself. -/
def ClientAction.Own : ClientAction maxSize maxOpen → Prop
  | .take | .submit | .advance => True
  | .recv _ | .leave | .others _ => False

/-- The sections of `submit_order`, one after another, do what the call does as a whole. -/
theorem ClientThread.submitting_alone {t : ClientThread maxSize maxOpen} {line : Bytes}
    {ord : Order}
    {mgr : Shared maxSize maxOpen} (at_ : t.progress = .submitting line ord .checked {})
    (with_ : t.backend = .inProcess mgr) (passed : mgr.manager.checkOrder ord = none) :
    run ClientThread.step t [.advance, .advance, .advance, .advance] =
      some (t.finish line (t.backend.perform (.order ord)).1 {}
        (t.backend.perform (.order ord)).2) := by
  obtain ⟨unread, readbuf, progress, handled, backend⟩ := t
  cases at_
  cases with_
  obtain ⟨mgr₁, rfl₁, first⟩ := @Shared.exists_nextSection _ _ mgr _ ord .checked _ rfl
  obtain ⟨mgr₂, rfl₂, second⟩ := @Shared.exists_nextSection _ _ mgr₁ _ ord .inserted _ rfl
  obtain ⟨mgr₃, rfl₃, third⟩ :=
    @Shared.exists_nextSection _ _ mgr₂ _ ord (.matched (mgr₁.manager.matchBook ord).1) _ rfl
  obtain ⟨mgr₄, rfl₄, fourth⟩ :=
    @Shared.exists_nextSection _ _ mgr₃ _ ord (.updated (mgr₁.manager.matchBook ord).1) _ rfl
  have submitted : mgr.manager.submitOrder ord =
      (⟨true, [], (mgr₁.manager.matchBook ord).1⟩, mgr₄.manager) := by
    rw [rfl₄, rfl₃, rfl₂, rfl₁]
    simp only [OrderManager.submitOrder, passed]
  have whole : Shared.submit mgr ord = (⟨true, [], (mgr₁.manager.matchBook ord).1⟩, mgr₄) := by
    obtain ⟨manager, attached, policy⟩ := mgr₄
    simp only [Shared.submit, submitted]
  simp only [run, step, advance, first, second, third, fourth, Option.map_some, Option.bind_some,
    Stage.result, finish, Venue.perform, Manager.submit, whole, Venue.metrics, Manager.metrics,
    Counts.add_add]

/-- A line that nothing interrupts is answered as a whole. -/
theorem ClientThread.answer_alone {t : ClientThread maxSize maxOpen} {line readbuf : Bytes}
    (running : t.backend.Running) (reading : t.progress = .reading)
    (next : Client.nextLine t.readbuf = some (line, readbuf)) (nonempty : line ≠ []) :
    ∃ actions : List (ClientAction maxSize maxOpen), (∀ a ∈ actions, a.Own) ∧
      run ClientThread.step t actions = some ({ t with readbuf }.finish line
        (t.backend.answer line).1 {} (t.backend.answer line).2) := by
  cases asked : requestOf maxSize line with
  | none =>
    refine ⟨[.take], by simp [ClientAction.Own], ?_⟩
    simp only [run, step, if_pos running, take, reading, next, if_neg nonempty, asked,
      Option.bind_some]
  | some request =>
    cases request with
    | refuse clid reason counted | cancel clid =>
      refine ⟨[.take], by simp [ClientAction.Own], ?_⟩
      simp only [run, step, if_pos running, take, reading, next, if_neg nonempty, asked,
        Option.bind_some]
    | order ord =>
      have answered : t.backend.answer line = t.backend.perform (.order ord) := by
        simp only [Backend.answer, Venue.answer, asked]
      have acked : t.step .take = some { t with readbuf, progress := .acked line ord } := by
        simp only [step, if_pos running, take, reading, next, if_neg nonempty, asked]
      rw [answered]
      obtain ⟨unread, buffer, progress, handled, backend⟩ := t
      cases backend with
      | terminated metrics => exact running.elim
      | snapshots read metrics =>
        refine ⟨[.take, .submit], by simp [ClientAction.Own], ?_⟩
        rw [run_cons, acked, Option.bind_some]
        rfl
      | inProcess mgr =>
        cases checked : mgr.manager.checkOrder ord with
        | some reason =>
          refine ⟨[.take, .submit], by simp [ClientAction.Own], ?_⟩
          rw [run_cons, acked, Option.bind_some]
          have whole : Shared.submit mgr ord = (⟨false, reason, []⟩, mgr.countRejected) := by
            have submitted : mgr.manager.submitOrder ord =
                (⟨false, reason, []⟩, mgr.manager.countRejected) := by
              simp only [OrderManager.submitOrder, checked]
            simp only [Shared.submit, submitted]
            rfl
          simp only [run, step, submit, checked, Option.bind_some, finish, Venue.perform,
            Manager.submit, whole]
        | none =>
          refine ⟨[.take, .submit, .advance, .advance, .advance, .advance],
            by simp [ClientAction.Own], ?_⟩
          rw [run_cons, acked, Option.bind_some, run_cons]
          simp only [step, submit, checked, Option.bind_some]
          exact submitting_alone rfl rfl checked

/-! ### Runs -/

/-- In every run of the thread of a client, the lines of its stream are answered in order, and each
`ORDER` line by one of `ACK` and `REJ`, exactly when the check of the manager finds room for each
order that the gateway has acknowledged, and neither the thread nor the process ends while a line
waits. -/
theorem ack_rej_exclusive_iff (b : Backend maxSize maxOpen) (running : b.Running) (stream : Bytes)
    (steps : List (ClientAction maxSize maxOpen)) :
    EveryState ClientThread.step (ClientThread.Exclusive stream) (.start b stream) steps ↔
      EveryStep ClientThread.step (fun t a => (t.step a).isSome = true → t.Orderly a)
        (.start b stream) steps := by
  have consistent : (ClientThread.start b stream).Consistent := trivial
  have exclusive : (ClientThread.start b stream).Exclusive stream := by
    refine ⟨rfl, List.forall_mem_nil _, ?_⟩
    rintro (gone | ended)
    · cases gone
    · exact absurd running ended
  constructor
  · refine everyStep_of_everyState (I := ClientThread.Consistent)
      (fun t a t' => ClientThread.consistent_step) (fun t a consistent exclusive next enabled => ?_)
      consistent
    obtain ⟨t', stepped⟩ := Option.isSome_iff_exists.mp enabled
    exact (ClientThread.exclusive_step_iff consistent exclusive stepped).mp (next t' stepped)
  · intro each
    refine everyState_of_everyStep (I := fun t => t.Consistent ∧ t.Exclusive stream)
      (fun t a t' inv orderly stepped => ⟨ClientThread.consistent_step inv.1 stepped, ?_⟩)
      (fun t inv => inv.2) ⟨consistent, exclusive⟩ each
    exact (ClientThread.exclusive_step_iff inv.1 inv.2 stepped).mpr (orderly (stepped ▸ rfl))

/-- A gateway that has just started, with an empty book and room for one open order. -/
def freshGateway : Backend 1000 1 :=
  .inProcess ⟨.start (some .empty) ⟨1000, 1⟩, rfl, rfl⟩

/-- Two orders that nothing trades against, in one `recv`. -/
def twoOrders : Chunk :=
  ⟨bytes "ORDER|a|BUY|AAPL|1|5\nORDER|b|BUY|AAPL|1|5\n", by decide, by decide⟩

/-- The thread takes the first order and leaves it open, and has acknowledged the second. -/
def secondAcked : List (ClientAction 1000 1) :=
  [.recv twoOrders, .take, .submit, .advance, .advance, .advance, .advance, .take]

/-- Up to there both are answered well. -/
theorem ack_rej_exclusive_iff_of_two :
    EveryState ClientThread.step (ClientThread.Exclusive twoOrders.data)
      (.start freshGateway twoOrders.data) secondAcked := by
  exact (ack_rej_exclusive_iff freshGateway trivial twoOrders.data secondAcked).mpr
    (by decide +kernel)

/-- How the second of them is answered. -/
def secondAnswer : Handled where
  line := bytes "ORDER|b|BUY|AAPL|1|5"
  responses := [.ack (bytes "b"), .rej (bytes "b") (bytes "max_open_orders_exceeded")]
  counts := ⟨0, 1⟩

/-- A gateway without an order book.  A file name of more than 255 bytes makes `exists` throw, and
there is no other file. -/
def emptyDirectory : Backend 1000 1 :=
  .snapshots (fun symbol => if symbol.length < 246 then .found none else .throws) {}

/-- An order for a symbol of 246 bytes, and another order behind it. -/
def longSymbol : Chunk :=
  ⟨bytes "ORDER|a|BUY|" ++ List.replicate 246 (byte 'A') ++ bytes "|1|5\nORDER|b|BUY|AAPL|1|5\n",
    by decide +kernel, by decide +kernel⟩

/-- The second order is answered by `ACK` and `REJ`, and counted as rejected only.  Without a
manager, an order that follows one for a symbol of 246 bytes is answered by neither. -/
theorem full_gateway_answers_twice :
    (¬ EveryState ClientThread.step (ClientThread.Exclusive twoOrders.data)
      (.start freshGateway twoOrders.data) (secondAcked ++ [.submit])) ∧
    ¬ EveryState ClientThread.step (ClientThread.Exclusive longSymbol.data)
      (.start emptyDirectory longSymbol.data) [.recv longSymbol, .take, .submit] := by
  constructor
  · intro all
    have last : (run ClientThread.step (.start freshGateway twoOrders.data)
        (secondAcked ++ [.submit])).map (fun t => t.handled.getLast?) =
          some (some secondAnswer) := by
      decide +kernel
    obtain ⟨t, ran, last⟩ := Option.map_eq_some_iff.mp last
    have exclusive := all _ (List.prefix_refl _) t ran
    have both :=
      (exclusive.handled secondAnswer (List.mem_of_getLast? last) (by decide +kernel)).one
    exact absurd both (by decide)
  · intro all
    have waiting : (run ClientThread.step (.start emptyDirectory longSymbol.data)
        [.recv longSymbol, .take, .submit]).map (fun t => (decide t.backend.Running, t.pending)) =
          some (false, [bytes "ORDER|b|BUY|AAPL|1|5"]) := by
      decide +kernel
    obtain ⟨t, ran, waiting⟩ := Option.map_eq_some_iff.mp waiting
    obtain ⟨ended, waits⟩ := Prod.mk.inj waiting
    have none := (all _ (List.prefix_refl _) t ran).finished (.inr (of_decide_eq_false ended))
    exact none _ (waits ▸ List.mem_singleton_self _) (by decide +kernel)

end EtradePipeline
