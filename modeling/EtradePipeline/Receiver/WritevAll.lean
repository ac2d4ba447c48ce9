import EtradePipeline.Kit.Cursor
import EtradePipeline.Kit.Transition
import EtradePipeline.Receiver.Record
import EtradePipeline.Values

/-! `writev_all`: the loop that writes a list of buffers with `writev`, which may take fewer bytes
than it is offered.  The buffers are in memory, so their byte counts do not wrap. -/

namespace EtradePipeline

open Kit.Transition (run run_append run_cons_eq_some run_invariant')
open Kit.Cursor (passed left Within window)

/-- What a `writev` returns: the number of bytes taken, or -1 with `EINTR` or another error. -/
inductive WritevOutcome where
  | wrote (w : Nat)
  | interrupted
  | failed
  deriving DecidableEq

/-- The variables of `writev_all`, what the file has taken so far, and what the call has
returned. -/
structure WritevAll where
  file : Bytes
  writtenTotal : Nat
  idx : Nat
  offset : Nat
  result : Option Bool
  deriving DecidableEq

namespace WritevAll

/-- `total`, summed by the first loop. -/
def total (iov : List Bytes) : Nat := iov.foldl (fun total buf => total + buf.length) 0

/-- The slice for the next `writev`, of at most 64 entries. -/
def tmp (iov : List Bytes) (w : WritevAll) : List Bytes := window 64 iov w.idx w.offset

/-- The loop that advances by `remaining` bytes, over the buffers from `idx` on. -/
def advance : List Bytes → Nat → Nat → Nat → Nat × Nat
  | [], _, idx, offset => (idx, offset)
  | buf :: rest, remaining, idx, offset =>
    if remaining = 0 then (idx, offset)
    else
      let curAvail := buf.length - offset
      if remaining < curAvail then (idx, offset + remaining)
      else advance rest (remaining - curAvail) (idx + 1) 0

/-- The test at the head of the loop. -/
def test (iov : List Bytes) (w : WritevAll) : WritevAll :=
  { w with result := if w.writtenTotal < total iov then none else some true }

def start (iov : List Bytes) : WritevAll := test iov ⟨[], 0, 0, 0, none⟩

/-- A `writev` that takes bytes takes at least one and no more than it is offered. -/
def Possible (iov : List Bytes) (w : WritevAll) : WritevOutcome → Prop
  | .wrote k => 1 ≤ k ∧ k ≤ (w.tmp iov).flatten.length
  | .interrupted | .failed => True

instance (iov : List Bytes) (w : WritevAll) : ∀ outcome, Decidable (w.Possible iov outcome)
  | .wrote _ => inferInstanceAs (Decidable (_ ∧ _))
  | .interrupted | .failed => inferInstanceAs (Decidable True)

/-- The body of the loop, for a possible outcome of its `writev`. -/
def body (iov : List Bytes) (w : WritevAll) : WritevOutcome → WritevAll
  | .wrote k =>
    let (idx, offset) := advance (iov.drop w.idx) k w.idx w.offset
    test iov { w with
      file := w.file ++ (w.tmp iov).flatten.take k
      writtenTotal := w.writtenTotal + k
      idx, offset }
  | .interrupted => test iov w
  | .failed => { w with result := some false }

/-- A round of the loop, or `none` when the call has returned or the outcome is not possible. -/
def step (iov : List Bytes) (w : WritevAll) (outcome : WritevOutcome) : Option WritevAll :=
  if w.result = none ∧ w.Possible iov outcome then some (w.body iov outcome) else none

/-! ### A round -/

variable {iov : List Bytes} {w w' : WritevAll} {outcome : WritevOutcome}

theorem step_eq_some :
    w.step iov outcome = some w' ↔
      w.result = none ∧ w.Possible iov outcome ∧ w.body iov outcome = w' := by
  unfold step
  split_ifs with possible
  · simp [possible]
  · simp only [false_iff]
    rintro ⟨running, possible', -⟩
    exact possible ⟨running, possible'⟩

theorem total_eq (iov : List Bytes) : total iov = iov.flatten.length := by
  have sum : ∀ n, iov.foldl (fun total buf => total + buf.length) n = n + iov.flatten.length := by
    induction iov with
    | nil => exact fun _ => rfl
    | cons buf iov ih =>
      intro n
      rw [List.foldl_cons, ih, List.flatten_cons, List.length_append, Nat.add_assoc]
  rw [total, sum, Nat.zero_add]

/-- The advanced position leaves what is behind the bytes taken. -/
theorem left_advance {k idx offset : Nat} {rest : List Bytes} (at_ : iov.drop idx = rest)
    (nonempty : ∀ buf ∈ iov, buf ≠ []) (within : Within iov idx offset) :
    left iov (advance rest k idx offset).1 (advance rest k idx offset).2 =
        (left iov idx offset).drop k ∧
      Within iov (advance rest k idx offset).1 (advance rest k idx offset).2 := by
  induction rest generalizing k idx offset with
  | nil =>
    have none : left iov idx offset = [] := by simp [left, at_]
    exact ⟨by rw [advance, none, List.drop_nil], within⟩
  | cons buf rest ih =>
    have inside : offset < buf.length := within buf (by rw [at_]; rfl)
    simp only [advance]
    split_ifs with zero less
    · exact ⟨by rw [zero, List.drop_zero], within⟩
    · refine ⟨Kit.Cursor.left_add k, fun other first => ?_⟩
      rw [at_] at first
      cases first
      show offset + k < buf.length
      omega
    · have next : iov.drop (idx + 1) = rest := Kit.Cursor.drop_next at_
      have start : Within iov (idx + 1) 0 := fun other first =>
        List.length_pos_iff.mpr
          (nonempty other (List.mem_of_mem_drop (List.mem_of_mem_head? first)))
      obtain ⟨behind, within'⟩ := @ih (k - (buf.length - offset)) _ _ next start
      refine ⟨behind.trans ?_, within'⟩
      rw [Kit.Cursor.left_next at_ inside.le, List.drop_drop]
      congr 1
      omega

/-! ### The invariant -/

/-- What every round keeps: the file has taken what is passed, and the call returns true once that
is everything, and false only before. -/
structure Inv (iov : List Bytes) (w : WritevAll) : Prop where
  within : Within iov w.idx w.offset
  taken : w.file ++ left iov w.idx w.offset = iov.flatten
  counted : w.writtenTotal = w.file.length
  whole : w.result = some true ↔ w.file = iov.flatten

theorem Inv.prefix_ (inv : w.Inv iov) : w.file <+: iov.flatten := ⟨_, inv.taken⟩

theorem Inv.resume (inv : w.Inv iov) : w.file = passed iov w.idx w.offset :=
  List.append_cancel_right (inv.taken.trans (Kit.Cursor.passed_append_left inv.within).symm)

/-- Until everything is written there is a byte to offer. -/
theorem Inv.offers (inv : w.Inv iov) (running : w.result = none) : (w.tmp iov).flatten ≠ [] := by
  refine Kit.Cursor.window_ne_nil inv.within fun none => ?_
  have taken := inv.taken
  rw [none, List.append_nil] at taken
  rw [inv.whole.mpr taken] at running
  cases running

/-- The test at the head of the loop ends it when everything is written. -/
theorem inv_test (within : Within iov w.idx w.offset)
    (taken : w.file ++ left iov w.idx w.offset = iov.flatten)
    (counted : w.writtenTotal = w.file.length) : (test iov w).Inv iov := by
  refine ⟨within, taken, counted, ?_⟩
  have length := congrArg List.length taken
  rw [List.length_append] at length
  have more : w.writtenTotal < total iov ↔ w.file ≠ iov.flatten := by
    rw [total_eq, counted]
    constructor
    · rintro less same
      rw [same] at less
      exact Nat.lt_irrefl _ less
    · intro other
      refine (List.IsPrefix.length_le ⟨_, taken⟩).lt_of_ne fun same => other ?_
      exact List.IsPrefix.eq_of_length ⟨_, taken⟩ same
  simp [test, more]

theorem inv_start (nonempty : ∀ buf ∈ iov, buf ≠ []) : (start iov).Inv iov :=
  inv_test (Kit.Cursor.within_start nonempty) (Kit.Cursor.left_start iov) rfl

/-- The bytes taken are the first of those that were left. -/
theorem take_tmp (within : Within iov w.idx w.offset) {k : Nat}
    (offered : k ≤ (w.tmp iov).flatten.length) :
    (w.tmp iov).flatten.take k = (left iov w.idx w.offset).take k := by
  obtain ⟨more, shown⟩ := Kit.Cursor.window_prefix (n := 64) within
  rw [← shown]
  exact (List.take_append_of_le_length offered).symm

theorem inv_step (nonempty : ∀ buf ∈ iov, buf ≠ []) (inv : w.Inv iov)
    (stepped : w.step iov outcome = some w') : w'.Inv iov := by
  obtain ⟨running, possible, rfl⟩ := step_eq_some.mp stepped
  cases outcome with
  | wrote k =>
    obtain ⟨behind, within⟩ := left_advance (k := k) rfl nonempty inv.within
    refine inv_test within ?_ ?_
    · rw [behind, take_tmp inv.within possible.2, List.append_assoc, List.take_append_drop]
      exact inv.taken
    · rw [List.length_append, List.length_take, min_eq_left possible.2, inv.counted]
  | interrupted => exact inv_test inv.within inv.taken inv.counted
  | failed =>
    refine ⟨inv.within, inv.taken, inv.counted, ?_⟩
    have unfinished : w.file ≠ iov.flatten := fun same => by
      rw [inv.whole.mpr same] at running
      cases running
    simp [body, unfinished]

/-- A round shows what is left, from its first byte on. -/
theorem Inv.tmp_prefix (inv : w.Inv iov) : w.file ++ (w.tmp iov).flatten <+: iov.flatten := by
  obtain ⟨more, shown⟩ := Kit.Cursor.window_prefix (n := 64) inv.within
  exact ⟨more, by rw [List.append_assoc, tmp, shown, inv.taken]⟩

/-! ### Runs -/

variable {outcomes : List WritevOutcome}

theorem inv_run (nonempty : ∀ buf ∈ iov, buf ≠ [])
    (ran : run (step iov) (start iov) outcomes = some w) : w.Inv iov :=
  run_invariant' (fun _ _ _ inv stepped => inv_step nonempty inv stepped) (inv_start nonempty) ran

theorem test_result (w : WritevAll) : (test iov w).result ≠ some false := by
  simp only [test]
  split_ifs <;> simp

/-- A call that has returned goes no further. -/
theorem run_of_returned (returned : w.result ≠ none)
    (ran : run (step iov) w outcomes = some w') : outcomes = [] ∧ w' = w := by
  cases outcomes with
  | nil => exact ⟨rfl, (Option.some.inj ran).symm⟩
  | cons outcome outcomes =>
    obtain ⟨mid, stepped, -⟩ := run_cons_eq_some.mp ran
    exact absurd (step_eq_some.mp stepped).1 returned

/-- The call returns false only right after an error that is not `EINTR`. -/
theorem result_false_iff (ran : run (step iov) (start iov) outcomes = some w) :
    w.result = some false ↔ outcomes.getLast? = some .failed := by
  induction outcomes using List.reverseRecOn with
  | nil =>
    cases ran
    simpa using show ¬ (start iov).result = some false from test_result _
  | append_singleton outcomes outcome =>
    rw [run_append, Option.bind_eq_some_iff] at ran
    obtain ⟨mid, -, last⟩ := ran
    obtain ⟨w', stepped, done⟩ := run_cons_eq_some.mp last
    obtain ⟨-, -, rfl⟩ := step_eq_some.mp stepped
    cases done
    rw [List.getLast?_concat, Option.some_inj]
    cases outcome with
    | wrote k => simpa [body] using test_result _
    | interrupted => simpa [body] using test_result _
    | failed => simp [body]

/-- Each outcome of a run is an `EINTR`, takes a byte, or is the error at its end. -/
theorem length_run (ran : run (step iov) w outcomes = some w') :
    outcomes.length + w.file.length ≤
      outcomes.count .interrupted + w'.file.length + if w'.result = some false then 1 else 0 := by
  induction outcomes generalizing w with
  | nil =>
    cases ran
    simp
  | cons outcome outcomes ih =>
    obtain ⟨mid, stepped, rest⟩ := run_cons_eq_some.mp ran
    obtain ⟨-, possible, rfl⟩ := step_eq_some.mp stepped
    cases outcome with
    | wrote k =>
      obtain ⟨least, offered⟩ := possible
      have longer := ih rest
      simp only [body, test, List.length_append, List.length_take, min_eq_left offered] at longer
      rw [List.length_cons, List.count_cons_of_ne (by simp)]
      omega
    | interrupted =>
      have longer := ih rest
      simp only [body, test] at longer
      rw [List.length_cons, List.count_cons_self]
      omega
    | failed =>
      obtain ⟨rfl, rfl⟩ := run_of_returned (by simp [body]) rest
      simp [body]
      omega

/-- A run is no longer than its `EINTR`s and the bytes together. -/
theorem length_run_le (nonempty : ∀ buf ∈ iov, buf ≠ [])
    (ran : run (step iov) (start iov) outcomes = some w) :
    outcomes.length ≤ outcomes.count .interrupted + iov.flatten.length := by
  have inv := inv_run nonempty ran
  have counted := length_run ran
  have written := inv.prefix_.length_le
  split_ifs at counted with failed
  · have unfinished : w.file ≠ iov.flatten := fun same => by
      rw [inv.whole.mpr same] at failed
      cases failed
    have := written.lt_of_ne fun same => unfinished (inv.prefix_.eq_of_length same)
    omega
  · omega

/-- The first `n` of a sequence of outcomes. -/
def first (ω : Nat → WritevOutcome) (n : Nat) : List WritevOutcome := (List.range n).map ω

theorem first_succ (ω : Nat → WritevOutcome) (n : Nat) : first ω (n + 1) = first ω n ++ [ω n] := by
  simp [first, List.range_succ]

/-- Behind the last `EINTR` there are no more to count. -/
theorem count_first {ω : Nat → WritevOutcome} {n : Nat} (last : ∀ m, n ≤ m → ω m ≠ .interrupted)
    (more : Nat) : (first ω (n + more)).count .interrupted ≤ n := by
  induction more with
  | zero => simpa [first] using @List.count_le_length _ _ .interrupted (first ω n)
  | succ more ih =>
    rw [← Nat.add_assoc, first_succ, List.count_append, List.count_singleton]
    simpa [last (n + more) (Nat.le_add_right ..)] using ih

/-- With finitely many `EINTR`s among possible outcomes the call returns. -/
theorem returns (nonempty : ∀ buf ∈ iov, buf ≠ []) {ω : Nat → WritevOutcome} {n : Nat}
    (last : ∀ m, n ≤ m → ω m ≠ .interrupted)
    (possible : ∀ m w, run (step iov) (start iov) (first ω m) = some w → w.result = none →
      w.Possible iov (ω m)) :
    ∃ m w, run (step iov) (start iov) (first ω m) = some w ∧ w.result ≠ none := by
  by_contra never
  have running : ∀ m w, run (step iov) (start iov) (first ω m) = some w → w.result = none :=
    fun m w ran => by_contra fun returned => never ⟨m, w, ran, returned⟩
  have runs : ∀ m, ∃ w, run (step iov) (start iov) (first ω m) = some w := by
    intro m
    induction m with
    | zero => exact ⟨_, rfl⟩
    | succ m ih =>
      obtain ⟨w, ran⟩ := ih
      have goes := running m w ran
      refine ⟨w.body iov (ω m), ?_⟩
      rw [first_succ, run_append, ran, Option.bind_some, run_cons_eq_some]
      exact ⟨_, step_eq_some.mpr ⟨goes, possible m w ran goes, rfl⟩, rfl⟩
  obtain ⟨w, ran⟩ := runs (n + (iov.flatten.length + 1))
  have short := length_run_le nonempty ran
  have few := count_first last (iov.flatten.length + 1)
  have length : (first ω (n + (iov.flatten.length + 1))).length = n + (iov.flatten.length + 1) := by
    simp [first]
  omega

end WritevAll

open WritevAll

/-- `writev_all` writes the concatenation of its buffers.  At every moment the file has taken the
part up to where the loop resumes, the next `writev` is offered bytes right behind it, and the call
returns true when that is everything, and false only for an error other than `EINTR`.  It returns,
if `EINTR` does not come for ever. -/
theorem writevAll_writes_concatenation (iov : List Bytes) (nonempty : ∀ buf ∈ iov, buf ≠ []) :
    (∀ outcomes w, run (step iov) (start iov) outcomes = some w →
      w.file <+: iov.flatten ∧ w.file = passed iov w.idx w.offset ∧
        w.writtenTotal = w.file.length ∧ w.file ++ (w.tmp iov).flatten <+: iov.flatten ∧
        (w.result = none → (w.tmp iov).flatten ≠ []) ∧
        (w.result = some true ↔ w.file = iov.flatten) ∧
        (w.result = some false ↔ outcomes.getLast? = some .failed) ∧
        outcomes.length ≤ outcomes.count .interrupted + iov.flatten.length) ∧
    ∀ ω : Nat → WritevOutcome, (∃ n, ∀ m, n ≤ m → ω m ≠ .interrupted) →
      (∀ n w, run (step iov) (start iov) (first ω n) = some w → w.result = none →
        w.Possible iov (ω n)) →
      ∃ n w, run (step iov) (start iov) (first ω n) = some w ∧ w.result ≠ none := by
  constructor
  · intro outcomes w ran
    have inv := inv_run nonempty ran
    exact ⟨inv.prefix_, inv.resume, inv.counted, inv.tmp_prefix, inv.offers, inv.whole,
      result_false_iff ran, length_run_le nonempty ran⟩
  · rintro ω ⟨n, last⟩ possible
    exact returns nonempty last possible

theorem writevAll_writes_concatenation_in_parts :
    ∃ w, run (step [[1, 2], [3]]) (start [[1, 2], [3]]) [.wrote 1, .interrupted, .wrote 2] =
      some w ∧ w.file = [1, 2, 3] ∧ w.result = some true := by
  have ran : run (step [[1, 2], [3]]) (start [[1, 2], [3]]) [.wrote 1, .interrupted, .wrote 2] =
      some ⟨[1, 2, 3], 3, 2, 0, some true⟩ := by decide
  obtain ⟨-, -, -, -, -, whole, -⟩ :=
    (writevAll_writes_concatenation [[1, 2], [3]] (by decide)).1 _ _ ran
  exact ⟨_, ran, rfl, whole.mpr rfl⟩

end EtradePipeline
