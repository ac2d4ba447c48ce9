import EtradePipeline.Kit.Transcript
import Mathlib.Data.List.Basic

/-! Objects made of components.  Each call is about one component: it answers from that component
and changes no other.  What the calls about a component answer, and what they leave of it, is then
the same however the calls about other components come between. -/

namespace Kit.Components

open Kit.Transcript (transcript transcript_cons)

variable {σ κ γ α β : Type*}

/-- Calls that keep to the component they are about, which `view` shows. -/
structure Separate (call : σ → α → β × σ) (key : α → κ) (view : κ → σ → γ) : Prop where
  answer : ∀ s s' a, view (key a) s = view (key a) s' → (call s a).1 = (call s' a).1
  own : ∀ s s' a, view (key a) s = view (key a) s' →
    view (key a) (call s a).2 = view (key a) (call s' a).2
  other : ∀ s a k, k ≠ key a → view k (call s a).2 = view k s

variable {call : σ → α → β × σ} {key : α → κ} {view : κ → σ → γ} [DecidableEq κ]

/-- The part of a transcript about a component. -/
def about (key : α → κ) (k : κ) (entries : List (α × β)) : List (α × β) :=
  entries.filter fun e => key e.1 = k

/-- For a component, a run is as good as the run of the calls about it. -/
theorem about_transcript (separate : Separate call key view) {k : κ} {s s' : σ}
    (start : view k s = view k s') (as : List α) :
    about key k (transcript call s as).1 =
        (transcript call s' (as.filter fun a => key a = k)).1 ∧
      view k (transcript call s as).2 =
        view k (transcript call s' (as.filter fun a => key a = k)).2 := by
  induction as generalizing s s' with
  | nil => exact ⟨rfl, start⟩
  | cons a as ih =>
    rw [transcript_cons, about, List.filter_cons, List.filter_cons]
    by_cases own : key a = k
    · subst own
      obtain ⟨rest, final⟩ := ih (separate.own s s' a start)
      simp only [decide_true, if_true, transcript_cons, separate.answer s s' a start]
      exact ⟨congrArg _ rest, final⟩
    · obtain ⟨rest, final⟩ := ih ((separate.other s a k (Ne.symm own)).trans start)
      simp only [own, decide_false, Bool.false_eq_true, if_false]
      exact ⟨rest, final⟩

/-- Two runs with the same calls about a component, in the same order, agree on it. -/
theorem about_transcript_eq (separate : Separate call key view) {k : κ} (s : σ) {as as' : List α}
    (same : as.filter (fun a => key a = k) = as'.filter fun a => key a = k) :
    about key k (transcript call s as).1 = about key k (transcript call s as').1 ∧
      view k (transcript call s as).2 = view k (transcript call s as').2 := by
  obtain ⟨entries, final⟩ := @about_transcript _ _ _ _ _ _ _ _ _ separate k s s rfl as
  obtain ⟨entries', final'⟩ := @about_transcript _ _ _ _ _ _ _ _ _ separate k s s rfl as'
  rw [entries, entries', final, final', same]
  exact ⟨rfl, rfl⟩

end Kit.Components
