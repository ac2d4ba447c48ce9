import EtradePipeline.Orders.Calls

/-! The decision of `submit_order` against the policy that it enforces.  The size limit is an
unsigned number and the check reads it as a signed one, so a limit from 2^63 on is below every
size. -/

namespace EtradePipeline

/-- The policy as its limits read: zero is no limit, and the size and the number of open orders are
compared as numbers. -/
def RiskPolicy.Allows (p : RiskPolicy) (size : Int) (openOrders : Nat) : Prop :=
  0 < size ∧ (p.maxOrderSize = 0 ∨ size ≤ p.maxOrderSize.toNat) ∧
    (p.maxOpenOrders = 0 ∨ openOrders < p.maxOpenOrders.toNat)

/-- The size limit is one that a signed number holds. -/
def RiskPolicy.SizeSigned (p : RiskPolicy) : Prop := p.maxOrderSize.toNat < 2 ^ 63

/-- A limit is at least as loose as another. -/
def LooserLimit (loose tight : UInt64) : Prop := loose = 0 ∨ tight ≠ 0 ∧ tight ≤ loose

/-- Loosening the limits of a policy. -/
structure RiskPolicy.Looser (loose tight : RiskPolicy) : Prop where
  size : LooserLimit loose.maxOrderSize tight.maxOrderSize
  openOrders : LooserLimit loose.maxOpenOrders tight.maxOpenOrders

/-- A reason to reject an order that has nothing to do with the size limit. -/
def OrderManager.RejectsAnyway (m : OrderManager) (ord : Order) : Prop :=
  ord.size ≤ 0 ∨ (m.policy.maxOpenOrders ≠ 0 ∧ m.policy.maxOpenOrders.toNat ≤ m.openOrderCount) ∨
    m.ob = none

instance (p : RiskPolicy) (size : Int) (openOrders : Nat) : Decidable (p.Allows size openOrders) :=
  inferInstanceAs (Decidable (_ ∧ _ ∧ _))

instance (loose tight : UInt64) : Decidable (LooserLimit loose tight) :=
  inferInstanceAs (Decidable (_ ∨ _))

/-! ### Limits -/

theorem toInt_toInt64_of_lt {x : UInt64} (small : x.toNat < 2 ^ 63) :
    x.toInt64.toInt = x.toNat := by
  show x.toBitVec.toInt = _
  rw [BitVec.toInt_eq_toNat_of_lt (by simpa using by omega)]
  rfl

theorem toInt_toInt64_neg {x : UInt64} (large : 2 ^ 63 ≤ x.toNat) : x.toInt64.toInt < 0 := by
  show x.toBitVec.toInt < 0
  rw [BitVec.toInt_neg_iff]
  simpa using by omega

theorem limit_pos_iff {x : UInt64} : 0 < x ↔ x ≠ 0 := by
  rw [UInt64.lt_iff_toNat_lt, ne_eq, ← UInt64.toNat_inj]
  exact Nat.pos_iff_ne_zero

namespace OrderManager

variable {m : OrderManager} {ord : Order}

theorem accepted_iff : (m.submitOrder ord).1.accepted = true ↔ m.checkOrder ord = none := by
  rcases m.submitOrder_cases ord with ⟨reason, rejected, result⟩ | ⟨ob, passed, -, -, result, -⟩
  · simp [rejected, result]
  · simp [passed, result]

/-- The checks as they are made, with the size limit read as a signed number. -/
theorem checkOrder_eq_none_iff : m.checkOrder ord = none ↔
    ¬ m.RejectsAnyway ord ∧
      (m.policy.maxOrderSize = 0 ∨ ord.size ≤ m.policy.maxOrderSize.toInt64.toInt) := by
  rw [checkOrder_eq_none, RejectsAnyway, limit_pos_iff, limit_pos_iff, Option.isSome_iff_ne_none]
  constructor
  · rintro ⟨asked, size, room, attached⟩
    refine ⟨?_, or_iff_not_imp_left.mpr size⟩
    rintro (none | ⟨limited, full⟩ | missing)
    · omega
    · have := room limited
      omega
    · exact attached missing
  · rintro ⟨through, size⟩
    refine ⟨by_contra fun none => through (.inl (by omega)), or_iff_not_imp_left.mp size,
      fun limited => by_contra fun full => through (.inr (.inl ⟨limited, by omega⟩)),
      fun missing => through (.inr (.inr missing))⟩

/-- The policy in the same form. -/
theorem allows_iff : m.policy.Allows ord.size m.openOrderCount ∧ m.ob.isSome = true ↔
    ¬ m.RejectsAnyway ord ∧
      (m.policy.maxOrderSize = 0 ∨ ord.size ≤ m.policy.maxOrderSize.toNat) := by
  rw [RiskPolicy.Allows, RejectsAnyway, Option.isSome_iff_ne_none]
  constructor
  · rintro ⟨⟨asked, size, room⟩, attached⟩
    refine ⟨?_, size⟩
    rintro (none | ⟨limited, full⟩ | missing)
    · omega
    · have := room.resolve_left limited
      omega
    · exact attached missing
  · rintro ⟨through, size⟩
    refine ⟨⟨by_contra fun none => through (.inl (by omega)), size,
      or_iff_not_imp_left.mpr fun limited =>
      by_contra fun full => through (.inr (.inl ⟨limited, by omega⟩))⟩,
      fun missing => through (.inr (.inr missing))⟩

theorem size_pos_of_not_rejectsAnyway (through : ¬ m.RejectsAnyway ord) : 0 < ord.size :=
  by_contra fun none => through (.inl (by omega))

/-- A signed size limit is checked as it reads. -/
theorem accepted_iff_of_signed (signed : m.policy.SizeSigned) :
    (m.submitOrder ord).1.accepted = true ↔
      m.policy.Allows ord.size m.openOrderCount ∧ m.ob.isSome = true := by
  rw [accepted_iff, checkOrder_eq_none_iff, allows_iff, toInt_toInt64_of_lt signed]

/-- A size limit from 2^63 on rejects every order. -/
theorem accepted_of_unsigned (unsigned : ¬ m.policy.SizeSigned) :
    (m.submitOrder ord).1.accepted = false := by
  have large : 2 ^ 63 ≤ m.policy.maxOrderSize.toNat := not_lt.mp unsigned
  rw [← Bool.not_eq_true, accepted_iff, checkOrder_eq_none_iff]
  rintro ⟨through, none | below⟩
  · rw [none] at large
    exact absurd large (by decide)
  · have := toInt_toInt64_neg large
    have := size_pos_of_not_rejectsAnyway through
    omega

theorem allows_of_unsigned (int64 : ord.size < 2 ^ 63) (unsigned : ¬ m.policy.SizeSigned) :
    m.policy.Allows ord.size m.openOrderCount ∧ m.ob.isSome = true ↔ ¬ m.RejectsAnyway ord := by
  have large : 2 ^ 63 ≤ m.policy.maxOrderSize.toNat := not_lt.mp unsigned
  rw [allows_iff]
  exact and_iff_left (.inr (by omega))

theorem accepted_of_looser {loose : RiskPolicy} (looser : loose.Looser m.policy)
    (signed : loose.SizeSigned) (accepted : (m.submitOrder ord).1.accepted = true) :
    (OrderManager.submitOrder { m with policy := loose } ord).1.accepted = true := by
  have own : m.policy.SizeSigned := by_contra fun unsigned => by
    rw [accepted_of_unsigned unsigned] at accepted
    cases accepted
  obtain ⟨⟨asked, size, room⟩, attached⟩ := (accepted_iff_of_signed own).mp accepted
  refine (accepted_iff_of_signed signed).mpr ⟨⟨asked, ?_, ?_⟩, attached⟩
  · rcases looser.size with none | ⟨limited, looser⟩
    · exact .inl none
    · have below := size.resolve_left limited
      have := UInt64.le_iff_toNat_le.mp looser
      exact .inr (by show ord.size ≤ loose.maxOrderSize.toNat; omega)
  · rcases looser.openOrders with none | ⟨limited, looser⟩
    · exact .inl none
    · have below := room.resolve_left limited
      exact .inr (below.trans_le (UInt64.le_iff_toNat_le.mp looser))

end OrderManager

open OrderManager

/-- The decision of `submit_order` is the policy's exactly when the size limit is one that a signed
number holds, or the order is rejected anyway.  A looser policy accepts what a tighter one accepted
exactly when its size limit is such a one. -/
theorem risk_decision_iff (m : OrderManager) (ord : Order) (int64 : ord.size < 2 ^ 63) :
    (((m.submitOrder ord).1.accepted = true ↔
        m.policy.Allows ord.size m.openOrderCount ∧ m.ob.isSome = true) ↔
      m.policy.SizeSigned ∨ m.RejectsAnyway ord) ∧
    ∀ loose : RiskPolicy, loose.Looser m.policy → (m.submitOrder ord).1.accepted = true →
      ((OrderManager.submitOrder { m with policy := loose } ord).1.accepted = true ↔
        loose.SizeSigned) := by
  constructor
  · by_cases signed : m.policy.SizeSigned
    · exact iff_of_true (accepted_iff_of_signed signed) (.inl signed)
    · rw [accepted_of_unsigned signed, allows_of_unsigned int64 signed]
      simp [signed]
  · intro loose looser accepted
    constructor
    · intro accepted'
      by_contra unsigned
      rw [@accepted_of_unsigned { m with policy := loose } ord unsigned] at accepted'
      cases accepted'
    · exact fun signed => accepted_of_looser looser signed accepted

/-- A manager with an empty book and a size limit only. -/
def sizeLimited (maxOrderSize : UInt64) : OrderManager := .start (some .empty) ⟨maxOrderSize, 0⟩

/-- A buy of one. -/
def buyOne : Order := ⟨bytes "cli1", .buy, bytes "AAPL", .finite 100, 1⟩

theorem risk_decision_iff_at_million :
    ((sizeLimited 1).submitOrder buyOne).1.accepted = true ∧
      ((sizeLimited 1000000).submitOrder buyOne).1.accepted = true := by
  have decision := risk_decision_iff (sizeLimited 1) buyOne (by decide)
  have accepted := (decision.1.mpr (.inl (by unfold RiskPolicy.SizeSigned; decide))).mpr (by decide)
  refine ⟨accepted, (decision.2 ⟨1000000, 0⟩ ⟨by decide, by decide⟩ accepted).mpr ?_⟩
  unfold RiskPolicy.SizeSigned
  decide

/-- The largest size limit rejects an order of one, which a limit of one accepts. -/
theorem largest_limit_rejects :
    ((sizeLimited (-1)).submitOrder buyOne).1 = ⟨false, bytes "size_exceeds_limit", []⟩ ∧
    (sizeLimited (-1)).policy.maxOrderSize.toNat = 2 ^ 64 - 1 ∧
    (sizeLimited (-1)).policy.Allows buyOne.size (sizeLimited (-1)).openOrderCount ∧
    (sizeLimited (-1)).ob.isSome = true ∧
    ((sizeLimited 1).submitOrder buyOne).1.accepted = true ∧
    (sizeLimited (-1)).policy.Looser (sizeLimited 1).policy := by
  refine ⟨by decide, by decide, by decide, by decide, by decide, ⟨by decide, by decide⟩⟩

end EtradePipeline
