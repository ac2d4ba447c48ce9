import Mathlib.Tactic.TypeStar

/-! Objects whose calls answer.  A call maps a state to an answer and the next state, and a
transcript pairs the calls of a run with their answers.  Two objects whose calls answer alike, under
a relation of their states that the calls keep, have the same transcripts. -/

namespace Kit.Transcript

variable {σ τ α β : Type*}

/-- The calls of a run with their answers, and the state after them. -/
def transcript (call : σ → α → β × σ) : σ → List α → List (α × β) × σ
  | s, [] => ([], s)
  | s, a :: as =>
    let (answer, s') := call s a
    let (rest, final) := transcript call s' as
    ((a, answer) :: rest, final)

@[simp] theorem transcript_nil (call : σ → α → β × σ) (s : σ) :
    transcript call s [] = ([], s) := rfl

@[simp] theorem transcript_cons (call : σ → α → β × σ) (s : σ) (a : α) (as : List α) :
    transcript call s (a :: as) =
      ((a, (call s a).1) :: (transcript call (call s a).2 as).1,
        (transcript call (call s a).2 as).2) := rfl

/-- The simulation of one object by another carries over to runs. -/
theorem transcript_simulates {f : σ → α → β × σ} {g : τ → α → β × τ} {R : σ → τ → Prop}
    (each : ∀ s t a, R s t → (f s a).1 = (g t a).1 ∧ R (f s a).2 (g t a).2) {s : σ} {t : τ}
    (start : R s t) (as : List α) :
    (transcript f s as).1 = (transcript g t as).1 ∧
      R (transcript f s as).2 (transcript g t as).2 := by
  induction as generalizing s t with
  | nil => exact ⟨rfl, start⟩
  | cons a as ih =>
    obtain ⟨answer, next⟩ := each s t a start
    obtain ⟨rest, final⟩ := ih next
    refine ⟨?_, final⟩
    rw [transcript_cons, transcript_cons, answer, rest]

end Kit.Transcript
