import Mathlib.Data.List.Infix

/-! Runs of a partial step function.  A step maps a state and an action to the next state, or to
`none` when the action is not enabled.  `run` takes a list of actions, `EveryStep` states a
condition on the state before each step of a run, and `EveryState` states a property of every state
that a run reaches.  The rules carry an invariant along a run, and exchange a condition on steps
for a property of states. -/

namespace Kit.Transition

variable {σ α : Type*} {step : σ → α → Option σ}

/-- The state after the actions, or `none` when one of them is not enabled where it is taken. -/
def run (step : σ → α → Option σ) : σ → List α → Option σ
  | s, [] => some s
  | s, a :: as => (step s a).bind fun s' => run step s' as

/-- Every step of the run from `s` along the actions meets `C`, a condition on the state before the
step and its action. -/
def EveryStep (step : σ → α → Option σ) (C : σ → α → Prop) : σ → List α → Prop
  | _, [] => True
  | s, a :: as => C s a ∧ ∀ s', step s a = some s' → EveryStep step C s' as

/-- Every state of the run from `s` along the actions, the first and the last included, meets
`P`. -/
def EveryState (step : σ → α → Option σ) (P : σ → Prop) (s : σ) (as : List α) : Prop :=
  ∀ done, done <+: as → ∀ s', run step s done = some s' → P s'

instance EveryStep.decidable {C : σ → α → Prop} [∀ s a, Decidable (C s a)] :
    ∀ (s : σ) (as : List α), Decidable (EveryStep step C s as)
  | _, [] => isTrue trivial
  | s, a :: as =>
    match h : step s a with
    | none => decidable_of_iff (C s a) (by simp [EveryStep, h])
    | some s' =>
      have := EveryStep.decidable (C := C) s' as
      decidable_of_iff (C s a ∧ EveryStep step C s' as) (by simp [EveryStep, h])

@[simp] theorem run_nil (s : σ) : run step s [] = some s := rfl

theorem run_cons (s : σ) (a : α) (as : List α) :
    run step s (a :: as) = (step s a).bind fun s' => run step s' as := rfl

theorem run_cons_eq_some {s s' : σ} {a : α} {as : List α} :
    run step s (a :: as) = some s' ↔ ∃ mid, step s a = some mid ∧ run step mid as = some s' := by
  rw [run_cons, Option.bind_eq_some_iff]

theorem run_append (s : σ) (as bs : List α) :
    run step s (as ++ bs) = (run step s as).bind fun s' => run step s' bs := by
  induction as generalizing s with
  | nil => rfl
  | cons a as ih =>
    simp only [List.cons_append, run_cons, Option.bind_assoc]
    congr 1
    funext s'
    exact ih s'

/-- Actions that are enabled in every state make a run. -/
theorem run_isSome {as : List α} (enabled : ∀ a ∈ as, ∀ s, (step s a).isSome = true) (s : σ) :
    (run step s as).isSome = true := by
  induction as generalizing s with
  | nil => rfl
  | cons a as ih =>
    obtain ⟨first, others⟩ := List.forall_mem_cons.mp enabled
    obtain ⟨mid, stepped⟩ := Option.isSome_iff_exists.mp (first s)
    rw [run_cons, stepped]
    exact ih others mid

/-- Every action of a run is enabled somewhere. -/
theorem exists_step_of_run {s s' : σ} {as : List α} (ran : run step s as = some s') :
    ∀ a ∈ as, ∃ before after, step before a = some after := by
  induction as generalizing s with
  | nil => exact nofun
  | cons a as ih =>
    obtain ⟨mid, stepped, rest⟩ := run_cons_eq_some.mp ran
    exact List.forall_mem_cons.mpr ⟨⟨s, mid, stepped⟩, ih rest⟩

theorem everyStep_true (s : σ) (as : List α) : EveryStep step (fun _ _ => True) s as := by
  induction as generalizing s with
  | nil => trivial
  | cons a as ih => exact ⟨trivial, fun s' _ => ih s'⟩

/-- Where every action is enabled, a run is a fold. -/
theorem run_total (next : σ → α → σ) (s : σ) (as : List α) :
    run (fun s a => some (next s a)) s as = some (as.foldl next s) := by
  induction as generalizing s with
  | nil => rfl
  | cons a as ih => exact ih (next s a)

/-- Every step of a run meets `C` exactly when each action does in the state that the actions before
it lead to. -/
theorem everyStep_iff {C : σ → α → Prop} {s : σ} {as : List α} :
    EveryStep step C s as ↔
      ∀ done a, done ++ [a] <+: as → ∀ s', run step s done = some s' → C s' a := by
  induction as generalizing s with
  | nil => simp [EveryStep]
  | cons b as ih =>
    constructor
    · rintro ⟨first, others⟩ done a pre s' ran
      cases done with
      | nil =>
        obtain ⟨rfl, -⟩ := List.cons_prefix_cons.mp pre
        cases ran
        exact first
      | cons d done =>
        obtain ⟨rfl, within⟩ := List.cons_prefix_cons.mp pre
        obtain ⟨mid, stepped, ran⟩ := run_cons_eq_some.mp ran
        exact ih.mp (others mid stepped) done a within s' ran
    · intro all
      refine ⟨all [] b (List.cons_prefix_cons.mpr ⟨rfl, List.nil_prefix ..⟩) s rfl, ?_⟩
      intro mid stepped
      refine ih.mpr fun done a pre s' ran => ?_
      exact all (b :: done) a (List.cons_prefix_cons.mpr ⟨rfl, pre⟩) s'
        (run_cons_eq_some.mpr ⟨mid, stepped, ran⟩)

/-- A step that meets `C` keeps `I`; so does a run whose steps all meet `C`. -/
theorem run_invariant {C : σ → α → Prop} {I : σ → Prop}
    (keeps : ∀ s a s', I s → C s a → step s a = some s' → I s') {s s' : σ} {as : List α}
    (start : I s) (each : EveryStep step C s as) (ran : run step s as = some s') : I s' := by
  induction as generalizing s with
  | nil => cases ran; exact start
  | cons a as ih =>
    obtain ⟨mid, stepped, rest⟩ := run_cons_eq_some.mp ran
    exact ih (keeps s a mid start each.1 stepped) (each.2 mid stepped) rest

/-- `run_invariant` where no condition on the steps is needed. -/
theorem run_invariant' {I : σ → Prop}
    (keeps : ∀ s a s', I s → step s a = some s' → I s') {s s' : σ} {as : List α}
    (start : I s) (ran : run step s as = some s') : I s' :=
  run_invariant (C := fun _ _ => True) (fun s a s' inv _ => keeps s a s' inv) start
    (everyStep_true s as) ran

/-- A property of the actions so far and the state that they lead to, which a step carries on, holds
at the end of a run. -/
theorem run_history {P : List α → σ → Prop} {s s' : σ} {as : List α} (base : P [] s)
    (keeps : ∀ done a mid after, run step s done = some mid → P done mid → step mid a = some after →
      P (done ++ [a]) after)
    (ran : run step s as = some s') : P as s' := by
  induction as using List.reverseRecOn generalizing s' with
  | nil =>
    cases ran
    exact base
  | append_singleton done a ih =>
    obtain ⟨mid, before, last⟩ :=
      Option.bind_eq_some_iff.mp ((run_append s done [a]).symm.trans ran)
    obtain ⟨after, stepped, ended⟩ := run_cons_eq_some.mp last
    cases ended
    exact keeps done a mid _ before (ih before) stepped

/-- A prefix of a run whose steps all meet `C` is one too. -/
theorem EveryStep.initial {C : σ → α → Prop} {s : σ} {done as : List α}
    (each : EveryStep step C s as) (pre : done <+: as) : EveryStep step C s done := by
  induction done generalizing s as with
  | nil => trivial
  | cons a done ih =>
    obtain ⟨rest, rfl⟩ := pre
    exact ⟨each.1, fun s' stepped => ih (each.2 s' stepped) ⟨rest, rfl⟩⟩

/-- What is left of a run whose steps all meet `C` is one too. -/
theorem EveryStep.final {C : σ → α → Prop} {s s' : σ} {done rest : List α}
    (each : EveryStep step C s (done ++ rest)) (ran : run step s done = some s') :
    EveryStep step C s' rest := by
  induction done generalizing s with
  | nil => cases ran; exact each
  | cons a done ih =>
    obtain ⟨mid, stepped, ran⟩ := run_cons_eq_some.mp ran
    exact ih (each.2 mid stepped) ran

/-- Two conditions met by every step of a run, together. -/
theorem EveryStep.and {C D : σ → α → Prop} {s : σ} {as : List α} (hC : EveryStep step C s as)
    (hD : EveryStep step D s as) : EveryStep step (fun s a => C s a ∧ D s a) s as := by
  induction as generalizing s with
  | nil => trivial
  | cons a as ih =>
    exact ⟨⟨hC.1, hD.1⟩, fun s' stepped => ih (hC.2 s' stepped) (hD.2 s' stepped)⟩

/-- Under an invariant that the steps meeting `C` keep, a consequence of the invariant and `C` is
met by every step too. -/
theorem EveryStep.weaken {C D : σ → α → Prop} {I : σ → Prop}
    (keeps : ∀ s a s', I s → C s a → step s a = some s' → I s')
    (gives : ∀ s a, I s → C s a → D s a) {s : σ} {as : List α} (start : I s)
    (each : EveryStep step C s as) : EveryStep step D s as := by
  induction as generalizing s with
  | nil => trivial
  | cons a as ih =>
    exact ⟨gives s a start each.1, fun s' stepped =>
      ih (keeps s a s' start each.1 stepped) (each.2 s' stepped)⟩

/-- An invariant that every step meeting `C` keeps holds in every state of such a run. -/
theorem everyState_of_everyStep {C : σ → α → Prop} {I P : σ → Prop}
    (keeps : ∀ s a s', I s → C s a → step s a = some s' → I s')
    (gives : ∀ s, I s → P s) {s : σ} {as : List α} (start : I s)
    (each : EveryStep step C s as) : EveryState step P s as :=
  fun _ pre _ ran => gives _ (run_invariant keeps start (each.initial pre) ran)

theorem EveryState.head {P : σ → Prop} {s : σ} {as : List α} (all : EveryState step P s as) :
    P s :=
  all [] ⟨as, rfl⟩ s rfl

theorem EveryState.tail {P : σ → Prop} {s s' : σ} {a : α} {as : List α}
    (all : EveryState step P s (a :: as)) (stepped : step s a = some s') :
    EveryState step P s' as := by
  intro done pre final ran
  exact all (a :: done) (List.cons_prefix_cons.mpr ⟨rfl, pre⟩) final
    (run_cons_eq_some.mpr ⟨s', stepped, ran⟩)

/-- If every state of a run meets `P`, and a step between two states that meet `P` must meet `C`
under an invariant of all runs, then every step of the run meets `C`. -/
theorem everyStep_of_everyState {C : σ → α → Prop} {I P : σ → Prop}
    (keeps : ∀ s a s', I s → step s a = some s' → I s')
    (gives : ∀ s a, I s → P s → (∀ s', step s a = some s' → P s') → C s a) {s : σ} {as : List α}
    (start : I s) (all : EveryState step P s as) : EveryStep step C s as := by
  induction as generalizing s with
  | nil => trivial
  | cons a as ih =>
    exact ⟨gives s a start all.head fun s' stepped => (all.tail stepped).head,
      fun s' stepped => ih (keeps s a s' start stepped) (all.tail stepped)⟩

end Kit.Transition
