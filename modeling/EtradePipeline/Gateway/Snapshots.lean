import EtradePipeline.Gateway.Backend
import EtradePipeline.Kit.Json.Parser
import EtradePipeline.Kit.Tokens
import EtradePipeline.Receiver.RecordText

/-! The snapshot files of the gateway and their reader.  The key that the reader searches for is
misspelt: it is in no text of the format, so that no snapshot with levels is read. -/

namespace EtradePipeline

open Kit.Search (indexOf behind behind_cons behind_append_of_notMem prefix_of_indexOf)
open Kit.Tokens
  (Token spaced Key Absent Follows Skipped absent_nil absent_lit absent_str skipped_intercalate)

/-! ### The format -/

/-- An entry of the array of levels. -/
structure SnapshotLevel where
  price : Numeral
  size : Int
  decimal : price.exponent = none

def memberTokens (name : Bytes) (value : List (Token UInt8)) : List (Token UInt8) :=
  .str name :: .lit (bytes ":") :: value

def SnapshotLevel.tokens (l : SnapshotLevel) : List (Token UInt8) :=
  .lit (bytes "\x7b") :: (memberTokens (bytes "price") [.lit l.price.text] ++
    .lit (bytes ",") ::
      (memberTokens (bytes "size") [.lit (printInt l.size)] ++ [.lit (bytes "\x7d")]))

def levelsTokens (levels : List SnapshotLevel) : List (Token UInt8) :=
  .lit (bytes "[") ::
    ([.lit (bytes ",")].intercalate (levels.map SnapshotLevel.tokens) ++ [.lit (bytes "]")])

/-- A snapshot.  The `further` members are those between the timestamp and the levels, each with a
string or a bare value. -/
structure Snapshot where
  symbol : Bytes
  lastUpdatedMs : Int
  further : List (Bytes × Token UInt8)
  levels : Option (List SnapshotLevel)
  symbol_free : byte '"' ∉ symbol
  further_free : ∀ m ∈ further, byte '"' ∉ m.1 ∧ byte '"' ∉ m.2.content
  further_named : ∀ m ∈ further, m.1 ≠ bytes "levels:"

namespace Snapshot

def members (s : Snapshot) : List (List (Token UInt8)) :=
  memberTokens (bytes "symbol") [.str s.symbol] ::
    memberTokens (bytes "last_updated_ms") [.lit (printInt s.lastUpdatedMs)] ::
      (s.further.map (fun m => memberTokens m.1 [m.2]) ++
        (s.levels.map fun levels => memberTokens (bytes "levels") (levelsTokens levels)).toList)

def tokens (s : Snapshot) : List (Token UInt8) :=
  .lit (bytes "\x7b") :: ([.lit (bytes ",")].intercalate s.members ++ [.lit (bytes "\x7d")])

/-- White space, as JSON has it between tokens. -/
abbrev Blanks := {s : Bytes // ∀ c ∈ s, Kit.Json.isBlank c = true}

/-- The text of a snapshot, with any white space around its tokens. -/
def text (s : Snapshot) (gaps : ℕ → Blanks) : Bytes :=
  spaced (byte '"') (fun i => (gaps i).val) s.tokens

/-- The price of the first level is read, and none where there is no level. -/
structure Read (s : Snapshot) (gaps : ℕ → Blanks) : Prop where
  top : ∀ top more, s.levels = some (top :: more) →
    readTopOfBook (some (s.text gaps)) = (top.price.double, top.price.double)
  none : (∀ top more, s.levels ≠ some (top :: more)) →
    readTopOfBook (some (s.text gaps)) = (.nan, .nan)

end Snapshot

/-! ### The misspelt key -/

/-- What the reader searches for. -/
def levelsKey : Key UInt8 where
  q := byte '"'
  first := byte 'l'
  letters := bytes "evels:"
  mark := byte ':'
  blank c := Kit.Json.isBlank c = true
  free := by decide
  quote_solid := by decide
  first_solid := by decide
  mark_solid := by decide

theorem levelsKey_text : levelsKey.text = bytes "\"levels:\":" := by decide

theorem absent_member {name : Bytes} (free : byte '"' ∉ name) (named : name ≠ bytes "levels:")
    {ts : List (Token UInt8)} (absent : Absent levelsKey ts) :
    Absent levelsKey (.str name :: .lit (bytes ":") :: ts) :=
  absent_str free (by decide) (fun same => absurd same named) (absent_lit (by decide) absent)

theorem skipped_member {name : Bytes} {value : Token UInt8} (free : byte '"' ∉ name)
    (named : name ≠ bytes "levels:") (plain : byte '"' ∉ value.content) :
    Skipped levelsKey (memberTokens name [value]) := by
  intro more follows
  refine absent_member free named ?_
  cases value with
  | lit t => exact absent_lit plain follows.absent
  | str s =>
    obtain ⟨c, t, rest, rfl, first, mark⟩ := follows.starts
    exact absent_str plain first (fun _ => mark) follows.absent

theorem quote_notMem_numeral {s : Bytes} (plain : s ⊆ numeralBytes) : byte '"' ∉ s :=
  fun member => absurd (plain member) (by decide)

/-- What stands behind a member, a level or the array. -/
theorem follows_mark {mark : Bytes} (listed : mark ∈ [bytes ",", bytes "]", bytes "\x7d"])
    {ts : List (Token UInt8)} (absent : Absent levelsKey ts) :
    Follows levelsKey (.lit mark :: ts) := by
  simp only [List.mem_cons, List.not_mem_nil, or_false] at listed
  obtain rfl | rfl | rfl := listed <;>
    exact ⟨absent_lit (by decide) absent, _, _, _, rfl, by decide, by decide⟩

theorem skipped_level (l : SnapshotLevel) : Skipped levelsKey l.tokens := by
  intro more follows
  have size : Skipped levelsKey (memberTokens (bytes "size") [.lit (printInt l.size)]) :=
    skipped_member (by decide) (by decide) (quote_notMem_numeral (printInt_subset l.size))
  have price : Skipped levelsKey (memberTokens (bytes "price") [.lit l.price.text]) :=
    skipped_member (by decide) (by decide) (quote_notMem_numeral l.price.text_subset)
  have second := size _ (@follows_mark (bytes "\x7d") (by simp) _ follows.absent)
  have first := price _ (@follows_mark (bytes ",") (by simp) _ second)
  have whole := @absent_lit _ _ levelsKey (bytes "\x7b") _ (by decide) first
  simpa [SnapshotLevel.tokens, memberTokens] using whole

theorem skipped_groups {groups : List (List (Token UInt8))}
    (each : ∀ g ∈ groups, Skipped levelsKey g) :
    Skipped levelsKey ([.lit (bytes ",")].intercalate groups) :=
  skipped_intercalate groups (by decide) (by decide) (by decide) each

theorem skipped_levels (levels : List SnapshotLevel) :
    Skipped levelsKey (memberTokens (bytes "levels") (levelsTokens levels)) := by
  intro more follows
  have each : ∀ g ∈ levels.map SnapshotLevel.tokens, Skipped levelsKey g := by
    rintro g member
    obtain ⟨l, -, rfl⟩ := List.mem_map.mp member
    exact skipped_level l
  have close := @follows_mark (bytes "]") (by simp) _ follows.absent
  have array := @absent_lit _ _ levelsKey (bytes "[") _ (by decide) (skipped_groups each _ close)
  have member := @absent_member (bytes "levels") (by decide) (by decide) _ array
  simpa [memberTokens, levelsTokens] using member

theorem Snapshot.absent (s : Snapshot) : Absent levelsKey s.tokens := by
  have each : ∀ g ∈ s.members, Skipped levelsKey g := by
    intro g member
    simp only [members, List.mem_cons, List.mem_append, List.mem_map, Option.mem_toList,
      Option.map_eq_some_iff] at member
    obtain rfl | rfl | ⟨m, further, rfl⟩ | ⟨levels, -, rfl⟩ := member
    · exact skipped_member (by decide) (by decide) s.symbol_free
    · exact skipped_member (by decide) (by decide)
        (quote_notMem_numeral (printInt_subset s.lastUpdatedMs))
    · obtain ⟨free, plain⟩ := s.further_free m further
      exact skipped_member free (s.further_named m further) plain
    · exact skipped_levels levels
  exact absent_lit (by decide) (skipped_groups each _ (follows_mark (by simp) absent_nil))

/-! ### The reader -/

/-- The next search, from a place in the text whose first part has not the first letter of the
word. -/
theorem findFrom_cases {content here rest word : Bytes} {pos : Nat} {c : UInt8}
    (place : content.drop pos = here ++ rest) (starts : word.head? = some c) (free : c ∉ here) :
    (findFrom content word pos = none ∧ behind word rest = none) ∨
      ∃ next more, findFrom content word pos = some next ∧ content.drop next = word ++ more ∧
        behind word rest = some more := by
  obtain ⟨letters, rfl⟩ := List.head?_eq_some_iff.mp starts
  rw [← behind_append_of_notMem free, ← place, findFrom, behind]
  cases found : indexOf (c :: letters) (content.drop pos) with
  | none => exact .inl ⟨rfl, rfl⟩
  | some i =>
    obtain ⟨more, text⟩ := prefix_of_indexOf found
    refine .inr ⟨pos + i, more, rfl, ?_, ?_⟩
    · rw [text, List.drop_drop]
    · rw [Option.map_some, ← List.drop_drop, ← text, List.drop_left]

/-- What the reader converts, of the text behind a colon. -/
def priceText (s : Bytes) : Bytes :=
  (s.dropWhile fun c => c = byte ' ' || c = byte '\t').takeWhile isNumeralChar

/-- The number stands behind the first misspelt key, then the first `[`, the first `"price"` and the
first colon. -/
def MisspeltPrice (text : Bytes) (d : Double) : Prop :=
  ∃ array entries member number, behind levelsKey.text text = some array ∧
    behind (bytes "[") array = some entries ∧ behind (bytes "\"price\"") entries = some member ∧
    behind (bytes ":") member = some number ∧ stod (priceText number) = some d

theorem topPrice_eq (text : Bytes) :
    ∃ found : Option Double, topPrice (some text) = found.getD .nan ∧
      ∀ d, found = some d ↔ MisspeltPrice text d := by
  refine ⟨_, rfl, fun d => ?_⟩
  have start : text.drop 0 = [] ++ text := rfl
  simp only [MisspeltPrice, levelsKey_text, Option.bind_eq_bind, Option.bind_some]
  obtain ⟨lost, none⟩ | ⟨pos, array, found, place, key⟩ :=
    findFrom_cases start (by decide : (bytes "\"levels:\":").head? = some (byte '"'))
      List.not_mem_nil
  · simp [lost, none]
  obtain ⟨lost, none⟩ | ⟨brace, entries, found₁, place, bracket⟩ :=
    findFrom_cases place (by decide : (bytes "[").head? = some (byte '[')) (by decide)
  · simp [found, key, lost, none]
  obtain ⟨lost, none⟩ | ⟨pricePos, member, found₂, place, price⟩ :=
    findFrom_cases place (by decide : (bytes "\"price\"").head? = some (byte '"')) (by decide)
  · simp [found, found₁, key, bracket, lost, none]
  obtain ⟨lost, none⟩ | ⟨colon, number, found₃, place, mark⟩ :=
    findFrom_cases place (by decide : (bytes ":").head? = some (byte ':')) (by decide)
  · simp [found, found₁, found₂, key, bracket, price, lost, none]
  have after : text.drop (colon + 1) = number := by
    rw [← List.drop_drop, place]
    rfl
  simp [found, found₁, found₂, found₃, key, bracket, price, mark, after, priceText]

theorem scanMagnitude_ne_nan {s : Bytes} (plain : ∀ c ∈ s, isNumeralChar c = true) :
    scanMagnitude s ≠ some .nan := by
  have letter : ∀ n : Fin 256, isNumeralChar (UInt8.ofFin n) = true →
      toLower (UInt8.ofFin n) ≠ byte 'n' := by
    decide +kernel
  have named : ¬ bytes "nan" <+: s.map toLower := by
    intro initial
    obtain ⟨c, member, same⟩ :=
      List.mem_map.mp (initial.subset (List.mem_cons_self : byte 'n' ∈ bytes "nan"))
    exact letter c.toFin (plain c member) same
  simp only [scanMagnitude]
  split_ifs <;> simp

theorem stod_ne_nan {s : Bytes} (plain : ∀ c ∈ s, isNumeralChar c = true) : stod s ≠ some .nan := by
  have read : strtod (s.takeWhile (· ≠ 0)) ≠ some .nan := by
    intro read
    obtain ⟨d, magnitude, value⟩ := Option.map_eq_some_iff.mp read
    refine scanMagnitude_ne_nan (fun c member => ?_) (magnitude.trans (congrArg some ?_))
    · obtain ⟨sign, text, -⟩ := exists_sign ((s.takeWhile (· ≠ 0)).dropWhile isSpace)
      have inside : c ∈ (s.takeWhile (· ≠ 0)).dropWhile isSpace := by
        rw [text]
        exact List.mem_append_right _ member
      exact plain c (List.takeWhile_subset _ (List.dropWhile_subset _ inside))
    · cases d <;> split_ifs at value <;> simp_all [Double.neg]
  unfold stod
  cases result : strtod (s.takeWhile (· ≠ 0)) with
  | none => simp
  | some d =>
    rw [result] at read
    cases d with
    | finite q =>
      simp only [Double.nearest]
      split_ifs <;> simp
    | nan => exact absurd rfl read
    | posInf | negInf => simp

theorem topPrice_eq_nan_iff (text : Bytes) :
    topPrice (some text) = .nan ↔ ∀ d, ¬ MisspeltPrice text d := by
  obtain ⟨found, price, spelt⟩ := topPrice_eq text
  rw [price]
  cases found with
  | none => exact iff_of_true rfl fun d number => Option.some_ne_none d ((spelt d).mpr number).symm
  | some d =>
    have number := (spelt d).mp rfl
    refine iff_of_false ?_ fun none => none d number
    rintro rfl
    obtain ⟨_, _, _, digits, -, -, -, -, converts⟩ := number
    exact stod_ne_nan (fun c member => List.mem_takeWhile_imp member) converts

/-! ### Snapshots -/

theorem Snapshot.unread (s : Snapshot) (gaps : ℕ → Blanks) :
    readTopOfBook (some (s.text gaps)) = (.nan, .nan) := by
  have lost := s.absent (fun i => (gaps i).val) fun i => (gaps i).property
  have nan : topPrice (some (s.text gaps)) = .nan := by
    rw [topPrice_eq_nan_iff]
    rintro d ⟨array, _, _, _, key, -⟩
    cases lost.symm.trans key
  rw [readTopOfBook, nan]

/-- The reader does what it is for on the snapshots without a level, and only on these.  Of a text
of any form it gives a NaN unless there is a number behind the misspelt key. -/
theorem snapshots_read_iff (s : Snapshot) (gaps : ℕ → Snapshot.Blanks) (text : Bytes) :
    (s.Read gaps ↔ ∀ top more, s.levels ≠ some (top :: more)) ∧
    (readTopOfBook (some text) = (.nan, .nan) ↔ ∀ d, ¬ MisspeltPrice text d) := by
  refine ⟨⟨fun read top more levels => ?_, fun none => ⟨fun top more levels => ?_, fun _ => ?_⟩⟩,
    ?_⟩
  · have price := (s.unread gaps).symm.trans (read.top top more levels)
    cases (Prod.mk.inj price).1
  · exact absurd levels (none top more)
  · exact s.unread gaps
  · rw [readTopOfBook, Prod.mk.injEq, and_self, topPrice_eq_nan_iff]

/-- A snapshot as the writer prints it. -/
def sampleSnapshot : Snapshot where
  symbol := bytes "AAPL"
  lastUpdatedMs := 1700000000000
  further := [(bytes "last_updated_iso", .str (bytes "2023-11-14T22:13:20Z"))]
  levels := some [⟨⟨.none, natDigits 173, some (natDigits 5), none,
    List.append_ne_nil_of_left_ne_nil (natDigits_ne_nil 173) _⟩, 100, rfl⟩]
  symbol_free := by decide
  further_free := List.forall_mem_singleton.mpr ⟨by decide, by decide⟩
  further_named := List.forall_mem_singleton.mpr (by decide)

/-- A blank before each token that the writer has one before. -/
def sampleGaps (i : ℕ) : Snapshot.Blanks :=
  if i ∈ [1, 3, 14, 15, 16, 17, 18, 19, 21, 23, 24, 26] then
    ⟨[byte ' '], List.forall_mem_singleton.mpr (by decide)⟩
  else ⟨[], List.forall_mem_nil _⟩

/-- The reader finds no price in it. -/
theorem snapshot_unread :
    sampleSnapshot.text sampleGaps =
      bytes ("\x7b \"symbol\": \"AAPL\",\"last_updated_ms\":1700000000000," ++
      "\"last_updated_iso\":\"2023-11-14T22:13:20Z\"," ++
      "\"levels\" : [ \x7b \"price\" : 173.5, \"size\": 100 \x7d] \x7d") ∧
    readTopOfBook (some (sampleSnapshot.text sampleGaps)) = (.nan, .nan) ∧
    ¬ sampleSnapshot.Read sampleGaps := by
  refine ⟨by decide +kernel, sampleSnapshot.unread sampleGaps, fun read => ?_⟩
  have price := (sampleSnapshot.unread sampleGaps).symm.trans (read.top _ _ rfl)
  cases (Prod.mk.inj price).1

end EtradePipeline
