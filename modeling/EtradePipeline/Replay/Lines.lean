import EtradePipeline.Replay.RoundTrip

/-! What `replay_sender` can find in the lines of a record whose symbol is any.  A symbol with
quotes or newlines can hold fields of its own, but the price that is found is the event's or one
that stands in the symbol, and the symbol that is found is short.  A record that is broken by its
symbol has no line with all the fields, unless the symbol holds some. -/

namespace EtradePipeline

open Kit.Getline (getlines getlines_append_delim getlines_field exists_around_of_mem_getlines)
open Kit.Search (behind quoted behind_singleton indexOf_singleton splitOn_quoted eq_append_of_behind
  infix_of_behind mem_splitOn_of_quoted notMem_intercalate pair_infix_append triple_infix_append)
open Kit.Split (exists_first_field length_le_of_mem_splitOn splitOn_append splitOn_append_left)

/-! ### The pieces -/

section

variable {payload : Bytes} {recvTsMs : Int} {source : Source} {ev : Event} {q : ℚ}
  (received : receiveEvent stod payload recvTsMs source = some ev)

include received

theorem src_digits : ev.src.cstr ⊆ byte ':' :: numeralBytes := by
  obtain ⟨fields, -, rfl⟩ := receiveEvent_eq_some.mp received
  exact fun c member =>
    srcMerged_subset source (List.mem_of_mem_take ((List.takeWhile_sublist _).subset member))

/-- A word other than the keys is none of the pieces behind the symbol. -/
theorem notMem_piecesBehind {word : Bytes} (letter : word.head? ≠ some (byte ':'))
    (letters : ¬ word ⊆ byte ':' :: numeralBytes)
    (other : word ∉ [bytes ",", bytes "price", bytes "size", bytes "src", bytes ":",
      bytes "\x7d"]) : word ∉ piecesBehind ev := by
  have number : ∀ x, word ≠ numberPiece x := fun x => (numberPiece_ne letter x).symm
  have src : word ≠ ev.src.cstr := fun same => letters (same ▸ src_digits received)
  simpa [piecesBehind, recordPieces, number, src] using other

/-- The piece behind a `price` is the event's, or in the symbol, or has no number. -/
theorem piece_behind_price {x : Bytes} (inside : [bytes "price", x] <:+: linePieces ev) :
    x = bytes "," ∨ x = numberPiece (printPrice ev.price) ∨
      [bytes "price", x] <:+: ev.symbolStr.splitOn (byte '"') := by
  have before : bytes "price" ∉ piecesBefore ev := notMem_piecesBefore (by decide) (by decide) ev
  obtain early | later | ⟨early, -⟩ := pair_infix_append inside
  · exact absurd (early.subset List.mem_cons_self) before
  · obtain held | own | ⟨-, first⟩ := pair_infix_append later
    · exact .inr (.inr held)
    · have number : ∀ x, bytes "price" ≠ numberPiece x := fun x =>
        (numberPiece_ne (by decide) x).symm
      have src : bytes "price" ≠ ev.src.cstr := fun same =>
        absurd (src_digits received (same ▸ (by decide : byte 'p' ∈ bytes "price"))) (by decide)
      have keys : bytes "price" ≠ bytes "," ∧ bytes "price" ≠ bytes "size" ∧
          bytes "price" ≠ bytes "src" ∧ bytes "price" ≠ bytes ":" ∧
          bytes "price" ≠ bytes "\x7d" := by decide
      simp [piecesBehind, recordPieces, List.infix_cons_iff, keys, number, src] at own
      exact .inr (.inl own)
    · exact .inl (Option.some.inj first).symm
  · exact absurd early before

theorem piecesBefore_short (clock : FitsLong recvTsMs) :
    ∀ piece ∈ piecesBefore ev, piece.length ≤ 31 := by
  obtain ⟨seq, msgTs, latency, -⟩ := fits_of_received received
  have recvTs : FitsLong ev.recvTsMs := by
    obtain ⟨fields, -, rfl⟩ := receiveEvent_eq_some.mp received
    exact clock
  have number : ∀ {x : Int}, FitsLong x → (numberPiece (printInt x)).length ≤ 31 := by
    intro x fits
    have width := fits.intWidth_le
    rw [← length_printInt] at width
    simp only [numberPiece, List.length_cons, List.length_append, List.length_nil]
    omega
  simp only [piecesBefore, recordPieces, List.take, List.forall_mem_cons]
  refine ⟨?_, ?_, number seq, ?_, number msgTs, ?_, number recvTs, ?_, number latency, ?_, ?_,
    List.forall_mem_nil _⟩
  all_goals decide

/-- The second piece behind a `symbol` is short. -/
theorem piece_behind_symbol (clock : FitsLong recvTsMs) {x sym : Bytes}
    (inside : [bytes "symbol", x, sym] <:+: linePieces ev) : sym.length ≤ 31 := by
  rw [linePieces, ← List.append_assoc] at inside
  obtain early | first | late := triple_infix_append inside
  · obtain before | within := List.mem_append.mp early
    · exact piecesBefore_short received clock sym before
    · exact (length_le_of_mem_splitOn within).trans (Nat.le_of_lt_succ ev.symbol.cstr_length_lt)
  · have short : (bytes ",").length ≤ 31 ∧ (bytes "price").length ≤ 31 := by decide
    simp only [piecesBehind, recordPieces, List.drop, List.take, List.mem_cons, List.not_mem_nil,
      or_false] at first
    obtain rfl | rfl := first
    · exact short.1
    · exact short.2
  · exact absurd late (notMem_piecesBehind received (by decide) (by decide) (by decide))

/-- What stands between quotes in a record before an end of its symbol. -/
theorem mem_of_quoted_before (finite : ev.price = .finite q) {word first : Bytes}
    (free : byte '"' ∉ word) (inside : quoted (byte '"') word <:+:
      [byte '"'].intercalate (piecesBefore ev) ++ byte '"' :: first) :
    word ∈ piecesBefore ev ∨ word ∈ (first.splitOn (byte '"')).dropLast := by
  have found := mem_splitOn_of_quoted free inside
  rw [List.splitOn_append_cons_self,
    List.splitOn_intercalate _ (fun piece inside =>
      (piecesBefore_unbroken received finite piece inside).1) (piecesBefore_ne_nil ev),
    List.tail_append_of_ne_nil (piecesBefore_ne_nil ev),
    List.dropLast_append_of_ne_nil (List.splitOn_ne_nil _ _), List.mem_append] at found
  exact found.imp_left List.mem_of_mem_tail

/-- What stands between quotes in a record behind a start of its symbol. -/
theorem mem_of_quoted_behind (finite : ev.price = .finite q) {word last : Bytes}
    (free : byte '"' ∉ word) (inside : quoted (byte '"') word <:+:
      last ++ byte '"' :: [byte '"'].intercalate (piecesBehind ev)) :
    word ∈ (last.splitOn (byte '"')).tail ∨ word ∈ piecesBehind ev := by
  have found := List.mem_of_mem_dropLast (mem_splitOn_of_quoted free inside)
  rwa [List.splitOn_append_cons_self,
    List.splitOn_intercalate _ (fun piece inside =>
      (piecesBehind_unbroken received finite piece inside).1) (piecesBehind_ne_nil ev),
    List.tail_append_of_ne_nil (List.splitOn_ne_nil _ _), List.mem_append] at found

end

/-! ### The lines -/

theorem getlines_recordText (ev : Event) :
    getlines (byte '\n') [] (recordText ev) = getlines (byte '\n') [] (recordLineText ev) := by
  have brace : byte '\x7d' ≠ byte '\n' := by decide
  obtain ⟨text, ends⟩ : ∃ text, recordLineText ev = text ++ [byte '\x7d'] :=
    ⟨[byte '"'].intercalate (recordPieces ev).dropLast ++ [byte '"'],
      by simp [recordLineText, recordPieces, bytes, byte]⟩
  rw [recordText_eq, ends]
  exact getlines_append_delim (by simp) (by simpa using brace)

/-- A number stands in the symbol behind a quoted `price`, where its start counts as a quote. -/
def Event.Holds (ev : Event) (price : Double) : Prop :=
  ∃ x, [bytes "price", x] <:+: ev.symbolStr.splitOn (byte '"') ∧ stod (numberRun x) = some price

/-- Behind a quoted word in a line there are the pieces of the record behind the word. -/
theorem splitOn_of_behind {ev : Event} {word line rest : Bytes} (free : byte '"' ∉ word)
    (member : line ∈ getlines (byte '\n') [] (recordLineText ev))
    (found : behind (quoted (byte '"') word) line = some rest) :
    ∃ front tail, (∀ c ∈ tail.head?, c = byte '\n') ∧
      (recordLineText ev).splitOn (byte '"') =
        front ++ word :: (rest ++ tail).splitOn (byte '"') := by
  obtain ⟨before, tail, text, ends⟩ := exists_around_of_mem_getlines member
  obtain ⟨first, rfl⟩ := eq_append_of_behind found
  refine ⟨(before ++ first).splitOn (byte '"'), tail, ends, ?_⟩
  rw [← splitOn_quoted free, text]
  simp only [List.append_assoc]

section

variable {payload : Bytes} {recvTsMs : Int} {source : Source} {ev : Event} {q : ℚ} {line : Bytes}
  (received : receiveEvent stod payload recvTsMs source = some ev) (finite : ev.price = .finite q)
  (member : line ∈ getlines (byte '\n') [] (recordLineText ev))

include received finite member

/-- A record that its symbol breaks has no `price` in the first line and no `seq` behind it, unless
the symbol has one between quotes.  So no line has all the fields of a datagram. -/
theorem lineFields_of_broken (broken : byte '\n' ∈ ev.symbolStr)
    (price : bytes "price" ∉ ev.symbolStr.splitOn (byte '"'))
    (seq : bytes "seq" ∉ ev.symbolStr.splitOn (byte '"')) : lineFields line = none := by
  obtain ⟨first, last, symbol, free⟩ := List.eq_append_cons_of_mem broken
  have front : byte '\n' ∉ [byte '"'].intercalate (piecesBefore ev) :=
    notMem_intercalate (by decide) fun piece inside =>
      (piecesBefore_unbroken received finite piece inside).2
  have unbroken : byte '\n' ∉ [byte '"'].intercalate (piecesBefore ev) ++ byte '"' :: first := by
    have quote : byte '\n' ≠ byte '"' := by decide
    simp [front, free, quote]
  rw [recordLineText_eq, symbol, List.append_assoc first, List.cons_append, ← List.cons_append,
    ← List.append_assoc, getlines_field unbroken, List.nil_append, List.mem_cons] at member
  obtain rfl | later := member
  · have none : extractDoubleField ([byte '"'].intercalate (piecesBefore ev) ++ byte '"' :: first)
        (bytes "\"price\"") = none := by
      rw [extractDoubleField_eq, Option.bind_eq_none_iff]
      intro rest found
      have inside : quoted (byte '"') (bytes "price") <:+: _ := infix_of_behind found
      obtain before | held := mem_of_quoted_before received finite (by decide) inside
      · exact absurd before (notMem_piecesBefore (by decide) (by decide) ev)
      · obtain ⟨rest, cut⟩ := splitOn_append_left (d := byte '"') first (byte '\n' :: last)
        exact absurd (symbol ▸ cut ▸ List.mem_append_left rest held) price
    simp [lineFields, none]
  · obtain ⟨before, behind, around, -⟩ := exists_around_of_mem_getlines later
    have none : extractLonlongField line (bytes "\"seq\"") = none := by
      rw [extractLonlongField_eq, Option.bind_eq_none_iff]
      intro rest found
      have inside : quoted (byte '"') (bytes "seq") <:+: _ :=
        (infix_of_behind found).trans ⟨before, behind, around.symm⟩
      obtain held | behind := mem_of_quoted_behind received finite (by decide) inside
      · obtain ⟨rest, -, cut⟩ := splitOn_append (d := byte '"') (first ++ [byte '\n']) last
        rw [List.append_assoc, List.singleton_append, ← symbol] at cut
        exact absurd (cut ▸ List.mem_append_right rest held) seq
      · exact absurd behind (notMem_piecesBehind received (by decide) (by decide) (by decide))
    simp [lineFields, none]

/-- The price that is found in a line is the event's, or one that stands in the symbol. -/
theorem price_of_line {price : Double}
    (found : extractDoubleField line (bytes "\"price\"") = some price) :
    stod (printPrice ev.price) = some price ∨ ev.Holds price := by
  rw [extractDoubleField_eq] at found
  obtain ⟨rest, searched, converted⟩ := Option.bind_eq_some_iff.mp found
  split_ifs at converted with empty
  obtain ⟨front, tail, ends, pieces⟩ :=
    splitOn_of_behind (by decide : byte '"' ∉ bytes "price") member searched
  obtain ⟨x, more, behind, cut, text, stops⟩ := exists_first_field (d := byte '"') (rest ++ tail)
  -- The number ends where the piece does.
  have run : numberRun rest = numberRun x := by
    have newline : isGap (byte '\n') = false ∧ isNumberChar (byte '\n') = false := by decide
    have quote : isGap (byte '"') = false ∧ isNumberChar (byte '"') = false := by decide
    have cut : numberRun (rest ++ tail) = numberRun rest :=
      numberRun_append rest fun c first => ends c first ▸ newline
    rw [← cut, text, numberRun_append x fun c first => stops c first ▸ quote]
  rw [run] at empty converted
  rw [splitOn_recordLineText received finite, cut] at pieces
  have inside : [bytes "price", x] <:+: linePieces ev :=
    ⟨front, more, by simp [pieces]⟩
  obtain rfl | rfl | held := piece_behind_price received inside
  · exact absurd (by decide) empty
  · have own : numberRun (numberPiece (printPrice ev.price)) = printPrice ev.price := by
      have filled : printPrice ev.price ≠ [] := by
        rw [finite, printPrice]
        simp [bytes]
      have run := numberRun_numberPiece (finite ▸ printPrice_subset q) filled []
      rwa [List.append_nil] at run
    exact .inl (own ▸ converted)
  · exact .inr ⟨x, held, converted⟩

/-- The symbol that is found in a line is short. -/
theorem symbol_of_line (clock : FitsLong recvTsMs) {sym : Bytes}
    (found : extractStringField line (bytes "\"symbol\"") = some sym) : sym.length ≤ 31 := by
  obtain ⟨rest, searched, later⟩ := Option.bind_eq_some_iff.mp found
  obtain ⟨text, opened, closed⟩ := Option.bind_eq_some_iff.mp later
  obtain ⟨r, first, rfl⟩ := Option.map_eq_some_iff.mp closed
  obtain ⟨front, tail, -, pieces⟩ :=
    splitOn_of_behind (by decide : byte '"' ∉ bytes "symbol") member searched
  -- Both quotes are the first ones behind the key.
  have quote : bytes "\"" = [byte '"'] := rfl
  rw [quote] at opened first
  obtain ⟨before, same⟩ := eq_append_of_behind opened
  obtain ⟨x, behind, rfl, free⟩ := List.eq_append_cons_of_mem (by simp [same] : byte '"' ∈ rest)
  rw [behind_singleton free] at opened
  obtain rfl := Option.some.inj opened
  have inText : byte '"' ∈ behind :=
    List.mem_of_mem_drop ((Kit.Search.prefix_of_indexOf first).subset (List.mem_singleton_self _))
  obtain ⟨sym, last, rfl, free'⟩ := List.eq_append_cons_of_mem inText
  rw [indexOf_singleton free'] at first
  obtain rfl := Option.some.inj first
  rw [List.take_left]
  rw [splitOn_recordLineText received finite, List.append_assoc, List.cons_append,
    List.splitOn_append_cons_self_of_not_mem free, List.append_assoc, List.cons_append,
    List.splitOn_append_cons_self_of_not_mem free'] at pieces
  have inside : [bytes "symbol", x, sym] <:+: linePieces ev :=
    ⟨front, (last ++ tail).splitOn (byte '"'), by simp [pieces]⟩
  exact piece_behind_symbol received clock inside

end

end EtradePipeline
