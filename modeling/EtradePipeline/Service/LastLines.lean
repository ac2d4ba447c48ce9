import EtradePipeline.Kit.Split
import EtradePipeline.Receiver.Stod

/-! `read_last_lines` of the events API.  It reads a file by blocks from its end until there are
more lines than it has been asked for.  The block that it stops at may begin inside a line, which is
then the one line too many. -/

namespace EtradePipeline

open Kit.Split (filled length_splitOn rtake_filled_append)

variable {α : Type*} (decode : Bytes → α)

/-! ### The reader -/

/-- `lines[i:]`. -/
def sliceFrom (lines : List α) (i : Int) : List α :=
  lines.drop (if i < 0 then (lines.length + i).toNat else i.toNat)

def bufsize : Nat := 8192

/-- The loop on the blocks of a file, or `none` when it has not ended after `fuel` rounds.  `data`
is what has been read, from `blockEnd` on. -/
def readBlocks (file : Bytes) (numLines : Int) : Nat → Nat → Bytes → List α → Option (List α)
  | 0, _, _, _ => none
  | fuel + 1, blockEnd, data, lines =>
    if 0 < blockEnd ∧ lines.length ≤ numLines then
      let blockStart := blockEnd - bufsize
      let block := (file.drop blockStart).take (blockEnd - blockStart)
      let data := block ++ data
      let allLines := data.splitOn (byte '\n')
      let lines := if 1 < allLines.length then (allLines.filter (· ≠ [])).map decode else lines
      if blockStart = 0 then some lines else readBlocks file numLines fuel blockStart data lines
    else some lines

/-- The loop ends: each round moves towards the start of the file. -/
theorem readBlocks_ends (file : Bytes) (numLines : Int) {fuel blockEnd : Nat}
    (enough : blockEnd < fuel) (data : Bytes) (lines : List α) :
    (readBlocks decode file numLines fuel blockEnd data lines).isSome = true := by
  induction fuel generalizing blockEnd data lines with
  | zero => omega
  | succ fuel ih =>
    rw [readBlocks]
    by_cases more : 0 < blockEnd ∧ lines.length ≤ numLines
    · by_cases start : blockEnd - bufsize = 0
      · simp only [if_pos more, if_pos start, Option.isSome_some]
      · simp only [if_pos more, if_neg start]
        have shorter : blockEnd - bufsize < blockEnd := Nat.sub_lt more.1 (by decide)
        exact ih (by omega) _ _
    · rw [if_neg more]
      rfl

/-- `read_last_lines`, of no file where the path does not exist.  `decode` is the decoding of a
line. -/
def readLastLines (file : Option Bytes) (numLines : Int) : List α :=
  match file with
  | none => []
  | some content =>
    if content = [] then []
    else
      sliceFrom ((readBlocks decode content numLines (content.length + 1) content.length [] []).get
        (readBlocks_ends decode content numLines (Nat.lt_succ_self _) [] [])) (-numLines)

/-! ### The lines of the whole file -/

/-- The lines of a file that are not empty. -/
def fileLines (content : Bytes) : List α := (filled (byte '\n') content).map decode

/-- The lines that are read from a position on: none before the first newline. -/
def linesFrom (data : Bytes) : List α := if byte '\n' ∈ data then fileLines decode data else []

variable {decode}

theorem sliceFrom_neg {lines : List α} {n : Int} (positive : 1 ≤ n) :
    sliceFrom lines (-n) = lines.rtake n.toNat := by
  have start : ((lines.length : Int) + -n).toNat = lines.length - n.toNat := by omega
  rw [sliceFrom, if_pos (by omega), start, List.rtake]

theorem one_lt_length_splitOn (data : Bytes) :
    1 < (data.splitOn (byte '\n')).length ↔ byte '\n' ∈ data := by
  rw [length_splitOn, Nat.lt_add_left_iff_pos, List.count_pos_iff]

/-- Where there are more lines than the last `n`, these are the last ones of the whole file. -/
theorem rtake_linesFrom {content : Bytes} {n blockEnd : Nat}
    (more : n < (linesFrom decode (content.drop blockEnd)).length) :
    (linesFrom decode (content.drop blockEnd)).rtake n = (fileLines decode content).rtake n := by
  unfold linesFrom at more ⊢
  split_ifs at more ⊢ with newline
  · rw [fileLines, List.length_map] at more
    have same := rtake_filled_append (content.take blockEnd) more
    rw [List.take_append_drop] at same
    simp only [fileLines, List.rtake, List.length_map, ← List.map_drop] at same ⊢
    rw [same]
  · cases more

theorem block_append_drop (content : Bytes) {blockStart blockEnd : Nat}
    (before : blockStart ≤ blockEnd) :
    (content.drop blockStart).take (blockEnd - blockStart) ++ content.drop blockEnd =
      content.drop blockStart := by
  have behind : content.drop blockEnd = (content.drop blockStart).drop (blockEnd - blockStart) := by
    rw [List.drop_drop, Nat.add_sub_cancel' before]
  rw [behind, List.take_append_drop]

theorem lines_of_round {data longer : Bytes} (behind : data <:+ longer) :
    (if 1 < (longer.splitOn (byte '\n')).length then
      ((longer.splitOn (byte '\n')).filter (· ≠ [])).map decode
    else linesFrom decode data) = linesFrom decode longer := by
  simp only [one_lt_length_splitOn]
  unfold linesFrom
  split_ifs with newline earlier
  · rfl
  · exact absurd (behind.subset earlier) newline
  · rfl

theorem readBlocks_round {content : Bytes} {n : Int} {fuel blockEnd : Nat}
    (more : 0 < blockEnd ∧ (linesFrom decode (content.drop blockEnd)).length ≤ n) :
    readBlocks decode content n (fuel + 1) blockEnd (content.drop blockEnd)
        (linesFrom decode (content.drop blockEnd)) =
      if blockEnd - bufsize = 0 then some (linesFrom decode (content.drop (blockEnd - bufsize)))
      else readBlocks decode content n fuel (blockEnd - bufsize) (content.drop (blockEnd - bufsize))
        (linesFrom decode (content.drop (blockEnd - bufsize))) := by
  have joined := block_append_drop content (Nat.sub_le blockEnd bufsize)
  have lines := @lines_of_round α decode _ _ ⟨_, joined⟩
  simp only [readBlocks, if_pos more, joined, lines]

/-- Whenever the loop ends, it has read the last lines. -/
theorem readBlocks_rtake {content : Bytes} (newline : byte '\n' ∈ content) {n : Int} (least : 0 ≤ n)
    {fuel blockEnd : Nat} {out : List α}
    (read : readBlocks decode content n fuel blockEnd (content.drop blockEnd)
      (linesFrom decode (content.drop blockEnd)) = some out) :
    out.rtake n.toNat = (fileLines decode content).rtake n.toNat := by
  have whole : linesFrom decode (content.drop 0) = fileLines decode content := if_pos newline
  induction fuel generalizing blockEnd with
  | zero => cases read
  | succ fuel ih =>
    by_cases more : 0 < blockEnd ∧ (linesFrom decode (content.drop blockEnd)).length ≤ n
    · rw [readBlocks_round more] at read
      split_ifs at read with start
      · rw [← Option.some.inj read, start, whole]
      · exact ih read
    · rw [readBlocks, if_neg more] at read
      rw [← Option.some.inj read]
      rcases Nat.eq_zero_or_pos blockEnd with rfl | inside
      · rw [whole]
      · exact rtake_linesFrom (by omega)

theorem readLastLines_eq {content : Bytes} (newline : byte '\n' ∈ content) {numLines : Int}
    (positive : 1 ≤ numLines) :
    readLastLines decode (some content) numLines =
      (fileLines decode content).rtake numLines.toNat := by
  have ends := readBlocks_ends decode content numLines (Nat.lt_succ_self content.length) [] []
  obtain ⟨out, read⟩ := Option.isSome_iff_exists.mp ends
  have start : content.drop content.length = [] := List.drop_length
  have fromEnd : readBlocks decode content numLines (content.length + 1) content.length
      (content.drop content.length) (linesFrom decode (content.drop content.length)) =
        some out := by
    rw [start]
    exact read
  simp only [readLastLines, if_neg (List.ne_nil_of_mem newline), Option.get_of_eq_some _ read,
    sliceFrom_neg positive]
  exact readBlocks_rtake newline (by omega) fromEnd

/-- `read_last_lines` ends and returns the last lines of the file that are not empty, each decoded
whole. -/
theorem last_lines_of_file (decode : Bytes → α) (content : Bytes) (newline : byte '\n' ∈ content)
    (numLines : Int) (positive : 1 ≤ numLines) :
    (∀ fuel, content.length < fuel →
      (readBlocks decode content numLines fuel content.length [] []).isSome = true) ∧
    readLastLines decode (some content) numLines =
      (((content.splitOn (byte '\n')).filter (· ≠ [])).map decode).rtake numLines.toNat ∧
    ∀ line ∈ readLastLines decode (some content) numLines,
      ∃ segment ∈ content.splitOn (byte '\n'), segment ≠ [] ∧ line = decode segment := by
  have last := @readLastLines_eq α decode _ newline _ positive
  refine ⟨fun fuel enough => readBlocks_ends decode content numLines enough [] [], last,
    fun line member => ?_⟩
  rw [last] at member
  obtain ⟨segment, kept, rfl⟩ := List.mem_map.mp (List.mem_of_mem_drop member)
  obtain ⟨whole, nonempty⟩ := List.mem_filter.mp kept
  exact ⟨segment, whole, of_decide_eq_true nonempty, rfl⟩

/-- The decoding of an ASCII text. -/
def asciiChars (s : Bytes) : List Char := s.map fun c => Char.ofNat c.toNat

theorem last_lines_of_file_unended :
    readLastLines asciiChars (some (bytes "a\n\nbc\nd")) 2 = [['b', 'c'], ['d']] :=
  (last_lines_of_file asciiChars (bytes "a\n\nbc\nd") (by decide) 2 (by decide)).2.1.trans
    (by decide)

end EtradePipeline
