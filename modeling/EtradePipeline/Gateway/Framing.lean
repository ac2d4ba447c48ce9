import EtradePipeline.Gateway.Client
import EtradePipeline.Kit.Framing

/-! The gateway answers the lines of the stream, however the stream is cut into chunks. -/

namespace EtradePipeline

open Kit.Framing (cut cut_of_notMem cut_first cut_append left_notMem)

/-- The lines of a stream: the segments that end with a newline, trimmed, but for the empty ones. -/
def lines (stream : Bytes) : List Bytes :=
  ((cut (byte '\n') stream).1.map trim).filter (· ≠ [])

/-- The responses to lines that are answered in order, and the backend after them. -/
def serve {maxSize : Int64} {maxOpen : UInt64} (b : Backend maxSize maxOpen) :
    List Bytes → List Response × Backend maxSize maxOpen
  | [] => ([], b)
  | line :: more =>
    ((b.answer line).1 ++ (serve (b.answer line).2 more).1, (serve (b.answer line).2 more).2)

namespace Client

variable {maxSize : Int64} {maxOpen : UInt64} {c : Client maxSize maxOpen}

/-! ### The inner loop -/

theorem findIdx?_newline {text : Bytes} (none : byte '\n' ∉ text) :
    text.findIdx? (· = byte '\n') = Option.none := by
  refine List.findIdx?_eq_none_iff.mpr fun c member => ?_
  rw [decide_eq_false_iff_not]
  rintro rfl
  exact none member

theorem nextLine_of_notMem {readbuf : Bytes} (none : byte '\n' ∉ readbuf) :
    nextLine readbuf = Option.none := by
  rw [nextLine, findIdx?_newline none, Option.map_none]

theorem nextLine_first {segment : Bytes} (none : byte '\n' ∉ segment) (rest : Bytes) :
    nextLine (segment ++ byte '\n' :: rest) = some (trim (segment ++ [byte '\n']), rest) := by
  have found : (segment ++ byte '\n' :: rest).findIdx? (· = byte '\n') = some segment.length := by
    simp [List.findIdx?_append, findIdx?_newline none, List.findIdx?_cons]
  have taken : (segment ++ byte '\n' :: rest).take (segment.length + 1) =
      segment ++ [byte '\n'] := by
    rw [List.append_cons]
    exact List.take_left' (by simp)
  have dropped : (segment ++ byte '\n' :: rest).drop (segment.length + 1) = rest := by
    rw [List.append_cons]
    exact List.drop_left' (by simp)
  rw [nextLine, found, Option.map_some, taken, dropped]

theorem nextLine_eq_some {readbuf line rest : Bytes} (next : nextLine readbuf = some (line, rest)) :
    ∃ segment, byte '\n' ∉ segment ∧ readbuf = segment ++ byte '\n' :: rest ∧
      line = trim (segment ++ [byte '\n']) := by
  by_cases complete : byte '\n' ∈ readbuf
  · obtain ⟨segment, rest', split, free⟩ := List.eq_append_cons_of_mem complete
    rw [split, nextLine_first free] at next
    cases next
    exact ⟨segment, free, split, rfl⟩
  · rw [nextLine_of_notMem complete] at next
    cases next

theorem lines_first {segment : Bytes} (none : byte '\n' ∉ segment) (rest : Bytes) :
    lines (segment ++ byte '\n' :: rest) =
      [trim (segment ++ [byte '\n'])].filter (· ≠ []) ++ lines rest := by
  simp only [lines, cut_first none, List.map_cons, ← List.filter_append, List.singleton_append]

/-- The line that the buffer starts with is the first of those that it holds. -/
theorem lines_of_nextLine {readbuf line rest : Bytes} (next : nextLine readbuf = some (line, rest))
    (more : Bytes) : lines (readbuf ++ more) = [line].filter (· ≠ []) ++ lines (rest ++ more) := by
  obtain ⟨segment, none, rfl, rfl⟩ := nextLine_eq_some next
  rw [List.append_assoc, List.cons_append, lines_first none]

@[simp] theorem answerLine_readbuf (line : Bytes) : (c.answerLine line).readbuf = c.readbuf := by
  unfold answerLine
  split_ifs <;> rfl

theorem answerLine_with_readbuf (line readbuf : Bytes) :
    { c with readbuf }.answerLine line = { c.answerLine line with readbuf } := by
  unfold answerLine
  split_ifs <;> rfl

/-- The lines, answered one after another. -/
def answerLines (c : Client maxSize maxOpen) (segments : List Bytes) : Client maxSize maxOpen :=
  segments.foldl (fun c segment => c.answerLine (trim segment)) c

theorem answerLines_with_readbuf (segments : List Bytes) (readbuf : Bytes) :
    { c with readbuf }.answerLines segments = { c.answerLines segments with readbuf } := by
  induction segments generalizing c with
  | nil => rfl
  | cons segment more ih =>
    simp only [answerLines, List.foldl_cons] at ih ⊢
    rw [answerLine_with_readbuf, ih]

/-- The inner loop answers the segments that the buffer holds, and leaves the rest in the buffer. -/
theorem takeLines_eq {rounds : Nat} (enough : c.readbuf.length ≤ rounds) :
    c.takeLines rounds = { c.answerLines (cut (byte '\n') c.readbuf).1 with
      readbuf := (cut (byte '\n') c.readbuf).2 } := by
  induction rounds generalizing c with
  | zero =>
    have empty : c.readbuf = [] := List.length_eq_zero_iff.mp (Nat.le_zero.mp enough)
    obtain ⟨readbuf, answered, backend⟩ := c
    subst empty
    rfl
  | succ rounds ih =>
    by_cases complete : byte '\n' ∈ c.readbuf
    · obtain ⟨segment, rest, split, none⟩ := List.eq_append_cons_of_mem complete
      rw [takeLines, takeLine, split, nextLine_first none, Option.map_some]
      simp only
      have shorter : rest.length ≤ rounds := by
        rw [split, List.length_append, List.length_cons] at enough
        omega
      rw [ih (by rwa [answerLine_readbuf]), answerLine_readbuf, cut_first none,
        answerLine_with_readbuf, answerLines_with_readbuf]
      rfl
    · rw [takeLines, takeLine, nextLine_of_notMem complete, cut_of_notMem complete]
      rfl

/-! ### The receive loop -/

/-- Between two receives the buffer holds the start of a line.  What it held and what came since
give the segments that are answered. -/
theorem receiveAll_eq (unfinished : byte '\n' ∉ c.readbuf) (rs : List Recv) :
    c.receiveAll rs = { c.answerLines (cut (byte '\n') (c.readbuf ++ stream rs)).1 with
      readbuf := (cut (byte '\n') (c.readbuf ++ stream rs)).2 } := by
  induction rs generalizing c with
  | nil =>
    rw [stream, List.append_nil, cut_of_notMem unfinished]
    rfl
  | cons r rs ih =>
    cases r with
    | timeout => exact ih unfinished
    | data chunk =>
      have stepped := takeLines_eq (le_refl (c.append chunk).readbuf.length)
      rw [receiveAll, List.foldl_cons, receive, stepped]
      refine (ih (left_notMem _)).trans ?_
      simp only [append, stream, answerLines_with_readbuf]
      rw [← List.append_assoc, cut_append (c.readbuf ++ chunk.data)]
      simp only [answerLines, List.foldl_append]

/-! ### The lines -/

theorem answerLines_serve (segments : List Bytes) :
    (c.answerLines segments).sent =
      c.sent ++ (serve c.backend ((segments.map trim).filter (· ≠ []))).1 ∧
    (c.answerLines segments).backend =
      (serve c.backend ((segments.map trim).filter (· ≠ []))).2 := by
  induction segments generalizing c with
  | nil => simp [answerLines, serve]
  | cons segment more ih =>
    obtain ⟨sent, backend⟩ := @ih (c.answerLine (trim segment))
    simp only [answerLines, List.foldl_cons] at sent backend ⊢
    rw [sent, backend]
    by_cases empty : trim segment = []
    · simp [empty, answerLine]
    · simp [empty, answerLine, serve, Client.sent]

end Client

/-- What the gateway sends for a sequence of `recv`s, and what it leaves behind, are those of the
lines of the stream answered in order. -/
theorem receiveAll_start {maxSize : Int64} {maxOpen : UInt64} (b : Backend maxSize maxOpen)
    (rs : List Recv) :
    (((Client.start b).receiveAll rs).sent, ((Client.start b).receiveAll rs).backend) =
      serve b (lines (stream rs)) := by
  have unfinished : byte '\n' ∉ (Client.start b).readbuf := List.not_mem_nil
  obtain ⟨sent, backend⟩ :=
    (Client.start b).answerLines_serve (cut (byte '\n') (stream rs)).1
  rw [Client.receiveAll_eq unfinished]
  exact Prod.ext sent backend

/-- Two sequences of `recv`s that bring the same stream make the gateway send the same responses and
leave the same behind. -/
theorem segmentation_independent {maxSize : Int64} {maxOpen : UInt64} (b : Backend maxSize maxOpen)
    (rs₁ rs₂ : List Recv) (same : stream rs₁ = stream rs₂) :
    ((Client.start b).receiveAll rs₁).sent = ((Client.start b).receiveAll rs₂).sent ∧
    ((Client.start b).receiveAll rs₁).backend = ((Client.start b).receiveAll rs₂).backend ∧
    (((Client.start b).receiveAll rs₁).sent, ((Client.start b).receiveAll rs₁).backend) =
      serve b (lines (stream rs₁)) := by
  have first := receiveAll_start b rs₁
  have second := receiveAll_start b rs₂
  rw [← same, ← first] at second
  obtain ⟨sent, backend⟩ := Prod.mk.inj second
  exact ⟨sent.symm, backend.symm, first⟩

/-- A gateway without an order book and without snapshots. -/
def bareBackend : Backend 100 1 := .snapshots (fun _ => .found none) {}

/-- A line cut in a field and before its newline, and the same line in one piece. -/
theorem segmentation_independent_on_split_line :
    ((Client.start bareBackend).receiveAll
      [.data ⟨bytes "ORDER|c1|BUY|AA", by decide, by decide⟩, .timeout,
        .data ⟨bytes "PL|1.5|7\r", by decide, by decide⟩,
        .data ⟨bytes "\nCANC", by decide, by decide⟩]).sent = [.ack (bytes "c1")] :=
  (segmentation_independent bareBackend _
    [.data ⟨bytes "ORDER|c1|BUY|AAPL|1.5|7\r\nCANC", by decide, by decide⟩] (by decide)).1.trans
    (by decide +kernel)

end EtradePipeline
