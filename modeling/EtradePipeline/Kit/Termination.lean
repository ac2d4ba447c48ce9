import EtradePipeline.Kit.Transition

/-! Termination of runs.  Some of the actions are the system's own, the others come from outside at
any time.  A measure that every own action lowers and that no other raises bounds how many own
actions a run has, and from every state own actions lead to one where none is enabled. -/

namespace Kit.Transition

variable {σ α : Type*} {step : σ → α → Option σ}

/-- What actions that meet `C` keep, runs of such actions keep. -/
theorem run_keeps {C : α → Prop} {I : σ → Prop}
    (keeps : ∀ s a s', I s → C a → step s a = some s' → I s')
    {s s' : σ} {as : List α} (start : I s) (meets : ∀ a ∈ as, C a) (ran : run step s as = some s') :
    I s' := by
  induction as generalizing s with
  | nil =>
    cases ran
    exact start
  | cons a as ih =>
    obtain ⟨mid, stepped, rest⟩ := run_cons_eq_some.mp ran
    obtain ⟨first, others⟩ := List.forall_mem_cons.mp meets
    exact ih (keeps s a mid start first stepped) others rest

/-- No own action is enabled. -/
def Stuck (step : σ → α → Option σ) (own : α → Bool) (s : σ) : Prop :=
  ∀ a, own a = true → step s a = none

/-- Actions that meet `C` keep `I`, own actions meet `C`, and the measure falls by one at least with
an own action and does not rise with another. -/
structure Descends (step : σ → α → Option σ) (C : α → Prop) (I : σ → Prop) (own : α → Bool)
    (measure : σ → Nat) : Prop where
  keeps : ∀ s a s', I s → C a → step s a = some s' → I s'
  admits : ∀ a, own a = true → C a
  falls : ∀ s a s', I s → step s a = some s' → measure s' + (if own a then 1 else 0) ≤ measure s

namespace Descends

variable {C : α → Prop} {I : σ → Prop} {own : α → Bool} {measure : σ → Nat} {s s' : σ} {as : List α}

/-- The own actions of a run are paid for by the measure. -/
theorem countP_le (d : Descends step C I own measure) (start : I s) (meets : ∀ a ∈ as, C a)
    (ran : run step s as = some s') : as.countP own + measure s' ≤ measure s := by
  induction as generalizing s with
  | nil =>
    cases ran
    simp
  | cons a as ih =>
    obtain ⟨mid, stepped, rest⟩ := run_cons_eq_some.mp ran
    obtain ⟨first, others⟩ := List.forall_mem_cons.mp meets
    have later := ih (d.keeps s a mid start first stepped) others rest
    have once := d.falls s a mid start stepped
    rw [List.countP_cons]
    omega

/-- Own actions, as long as one is enabled, come to an end. -/
theorem exists_stuck (d : Descends step C I own measure) (start : I s) :
    ∃ as s', (∀ a ∈ as, own a = true) ∧ run step s as = some s' ∧ Stuck step own s' := by
  generalize bound : measure s = n
  induction n using Nat.strong_induction_on generalizing s with
  | h n ih =>
    by_cases stuck : Stuck step own s
    · exact ⟨[], s, List.forall_mem_nil _, rfl, stuck⟩
    · simp only [Stuck, not_forall] at stuck
      obtain ⟨a, mine, enabled⟩ := stuck
      obtain ⟨mid, stepped⟩ := Option.ne_none_iff_exists'.mp enabled
      have lower := d.falls s a mid start stepped
      rw [if_pos mine] at lower
      obtain ⟨as, s', each, ran, end_⟩ :=
        ih (measure mid) (by omega) (d.keeps s a mid start (d.admits a mine) stepped) rfl
      exact ⟨a :: as, s', List.forall_mem_cons.mpr ⟨mine, each⟩,
        run_cons_eq_some.mpr ⟨mid, stepped, ran⟩, end_⟩

end Descends

end Kit.Transition
