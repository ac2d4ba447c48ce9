import EtradePipeline.Kit.Json.Balance
import EtradePipeline.Kit.TornLog

/-! Objects of which a log has fragments.  A written object that is not whole, and fragments that
have run together, are no text that parses, also where the parser knows constants that JSON does not
have. -/

namespace Kit.Json

open TornLog (Fragment)

/-- In an object that is open, the text keeps from its start on the number of open objects. -/
structure Level (s : List UInt8) : Prop where
  leads : Leads s
  within : ∀ p, p <+: s → ∀ d, 1 ≤ d →
    ∃ q ∈ [Place.outside, .closed, .inside], walk (.outside, d) p = (q, d)

variable {s t rest : List UInt8} {d : Int} {c : UInt8}

theorem level_calm (calm : ∀ c ∈ s, Calm c) : Level s :=
  ⟨(clears_calm calm).leads, fun _ part d _ =>
    ⟨.outside, by decide, walk_calm (fun c member => calm c (part.subset member)) d⟩⟩

theorem walk_plain (plain : ∀ c ∈ s, Plain c) (d : Int) : walk (.inside, d) s = (.inside, d) :=
  walk_decodes (decodes_plain plain) d

/-- A text between quotes. -/
theorem level_string (plain : ∀ c ∈ s, Plain c) : Level (char '"' :: (s ++ [char '"'])) := by
  have opened : ∀ d, next (.outside, d) (char '"') = (.inside, d) := fun _ => rfl
  refine ⟨fun d _ => .inr ?_, fun p part d _ => ?_⟩
  · rw [walk_cons, opened, walk_append, walk_plain plain]
    rfl
  · cases p with
    | nil => exact ⟨.outside, by decide, rfl⟩
    | cons c p =>
      obtain ⟨rfl, inner⟩ := List.cons_prefix_cons.mp part
      rw [walk_cons, opened]
      rcases List.prefix_concat_iff.mp inner with rfl | short
      · exact ⟨.closed, by decide, by rw [walk_append, walk_plain plain]; rfl⟩
      · exact ⟨.inside, by decide, walk_plain (fun c member => plain c (short.subset member)) d⟩

theorem Level.delimiter (first : Level s) (delimits : c ∈ delimiters) (second : Level t) :
    Level (s ++ c :: t) := by
  have clears := first.leads.delimiter delimits
  have joined : s ++ c :: t = s ++ [c] ++ t := by simp
  rw [joined]
  refine ⟨clears.leads_append second.leads, fun p part d inside => ?_⟩
  rcases List.prefix_or_prefix_of_prefix part (List.prefix_append _ _) with short | ⟨behind, rfl⟩
  · rcases List.prefix_concat_iff.mp short with rfl | short
    · exact ⟨.outside, by decide, clears d inside⟩
    · exact first.within p short d inside
  · rw [walk_append, clears d inside]
    exact second.within behind ((List.prefix_append_right_inj _).mp part) d inside

/-! ### Written objects -/

theorem level_written (e : Entry) (level : Level e.text) : Level e.written := by
  have text : e.written = char '"' :: (e.key ++ [char '"']) ++ char ':' :: e.text := by
    simp [Entry.written]
  rw [text]
  exact (level_string e.plain).delimiter (by decide) level

theorem level_body {entries : List Entry} (nonempty : entries ≠ [])
    (level : ∀ e ∈ entries, Level e.text) :
    Level ([char ','].intercalate (entries.map Entry.written)) := by
  induction entries with
  | nil => exact absurd rfl nonempty
  | cons e more ih =>
    obtain ⟨first, others⟩ := List.forall_mem_cons.mp level
    cases more with
    | nil =>
      rw [List.map_singleton, List.intercalate_singleton]
      exact level_written e first
    | cons next more =>
      rw [List.map_cons, List.map_cons, List.intercalate_cons_cons, List.append_assoc]
      exact (level_written e first).delimiter (by decide) (ih (List.cons_ne_nil _ _) others)

/-- Values that open no object, and a first key that does not start as what may come behind a
string. -/
structure Tellable (entries : List Entry) : Prop where
  level : ∀ e ∈ entries, Level e.text
  named : ∃ e ∈ entries.head?, ∃ k ∈ e.key.head?, ∀ d, next (.closed, d) k = (.lost, d)

/-- No way leads from here to the end of the object that a text starts with. -/
def Stuck (st : Place × Int) : Prop :=
  st.1 = .lost ∨ st.1 ∈ [Place.outside, .closed, .inside] ∧ 1 ≤ st.2

theorem not_stuck_done : ¬ Stuck (.done, 0) := by
  unfold Stuck
  decide

variable {entries : List Entry} {f : List UInt8}

theorem Tellable.nonempty (tellable : Tellable entries) : entries ≠ [] := by
  rintro rfl
  obtain ⟨e, none, -⟩ := tellable.named
  cases none

/-- A fragment of an object inside another. -/
theorem Tellable.inner (tellable : Tellable entries)
    (fragment : Fragment (objectText entries) f) {d : Int}
    (least : 0 ≤ d) (torn : f ≠ objectText entries) : Stuck (walk (.outside, d) f) := by
  obtain ⟨filled, part⟩ := fragment
  obtain ⟨c, p, rfl⟩ := List.exists_cons_of_ne_nil filled
  obtain ⟨rfl, inner⟩ := List.cons_prefix_cons.mp part
  rcases List.prefix_concat_iff.mp inner with rfl | short
  · exact absurd rfl torn
  · have level := level_body tellable.nonempty tellable.level
    obtain ⟨q, open_, walked⟩ := level.within p short (d + 1) (by omega)
    have deeper : next (.outside, d) (char '\x7b') = (.outside, d + 1) := rfl
    rw [walk_cons, deeper, walked]
    exact .inr ⟨open_, by omega⟩

theorem Tellable.whole (tellable : Tellable entries) {d : Int} (least : 0 ≤ d) :
    walk (.outside, d) (objectText entries) = closing (d + 1) := by
  have level := level_body tellable.nonempty tellable.level
  have deeper : next (.outside, d) (char '\x7b') = (.outside, d + 1) := rfl
  rw [objectText, walk_cons, deeper]
  exact level.leads.brace (d + 1) (by omega)

theorem Tellable.starts (tellable : Tellable entries) :
    ∃ k more, objectText entries = char '\x7b' :: char '"' :: k :: more ∧
      ∀ d, next (.closed, d) k = (.lost, d) := by
  obtain ⟨e, head, k, key, lost⟩ := tellable.named
  obtain ⟨more, rfl⟩ := List.head?_eq_some_iff.mp head
  obtain ⟨ks, key⟩ := List.head?_eq_some_iff.mp key
  obtain ⟨behind, text⟩ : ∃ behind, objectText (e :: more) =
      char '\x7b' :: (e.written ++ behind) := by
    cases more with
    | nil => exact ⟨[char '\x7d'],
      by rw [objectText, List.map_singleton, List.intercalate_singleton]⟩
    | cons e' more =>
      exact ⟨_, by rw [objectText, List.map_cons, List.map_cons, List.intercalate_cons_cons,
        List.append_assoc, List.append_assoc]⟩
  rw [text, Entry.written, key]
  exact ⟨k, _, rfl, lost⟩

/-- A fragment behind what is stuck. -/
theorem Tellable.stuck (tellable : Tellable entries) (fragment : Fragment (objectText entries) f)
    {st : Place × Int} (stuck : Stuck st) : Stuck (walk st f) := by
  obtain ⟨q, d⟩ := st
  rcases stuck with lost | ⟨open_, least⟩
  · obtain rfl : q = .lost := lost
    exact .inl (by rw [walk_lost])
  · have deep : 1 ≤ d := least
    simp only [List.mem_cons, List.not_mem_nil, or_false] at open_
    obtain ⟨k, more, text, lost⟩ := tellable.starts
    rcases open_ with rfl | rfl | rfl
    · by_cases whole : f = objectText entries
      · rw [whole, tellable.whole (by omega), closing, if_neg (by omega)]
        have outside : Place.outside ∈ [Place.outside, .closed, .inside] := by decide
        exact .inr ⟨outside, by omega⟩
      · exact tellable.inner fragment (by omega) whole
    · obtain ⟨filled, part⟩ := fragment
      obtain ⟨c, f, rfl⟩ := List.exists_cons_of_ne_nil filled
      rw [text] at part
      obtain ⟨rfl, -⟩ := List.cons_prefix_cons.mp part
      have gone : next (.closed, d) (char '\x7b') = (.lost, d) := rfl
      exact .inl (by rw [walk_cons, gone, walk_lost])
    · -- The brace is in a string, the quote ends it, and the key is where no key can be.
      obtain ⟨filled, part⟩ := fragment
      rw [text] at part
      obtain ⟨c, f, rfl⟩ := List.exists_cons_of_ne_nil filled
      obtain ⟨rfl, quoted⟩ := List.cons_prefix_cons.mp part
      have among : Place.closed ∈ [Place.outside, .closed, .inside] ∧
        Place.inside ∈ [Place.outside, .closed, .inside] := by decide
      have kept : next (.inside, d) (char '\x7b') = (.inside, d) := rfl
      have ended : next (.inside, d) (char '"') = (.closed, d) := rfl
      rw [walk_cons, kept]
      cases f with
      | nil => exact .inr ⟨among.2, least⟩
      | cons c f =>
        obtain ⟨rfl, keyed⟩ := List.cons_prefix_cons.mp quoted
        rw [walk_cons, ended]
        cases f with
        | nil => exact .inr ⟨among.1, least⟩
        | cons c f =>
          obtain ⟨rfl, -⟩ := List.cons_prefix_cons.mp keyed
          exact .inl (by rw [walk_cons, lost, walk_lost])

/-! ### Logs -/

/-- The records are written objects. -/
def Objects (records : List (List UInt8)) : Prop :=
  ∀ r ∈ records, ∃ entries, r = objectText entries ∧ Tellable entries

variable {records : List (List UInt8)} {line : List (List UInt8)}

theorem stuck_flatten (objects : Objects records) {st : Place × Int} (stuck : Stuck st)
    (fragments : ∀ f ∈ line, ∃ r ∈ records, Fragment r f) : Stuck (walk st line.flatten) := by
  induction line generalizing st with
  | nil => exact stuck
  | cons f line ih =>
    obtain ⟨⟨r, member, fragment⟩, others⟩ := List.forall_mem_cons.mp fragments
    obtain ⟨entries, rfl, tellable⟩ := objects r member
    rw [List.flatten_cons, walk_append]
    exact ih (tellable.stuck fragment stuck) others

theorem walk_single (objects : Objects records) {r f : List UInt8} (member : r ∈ records)
    (fragment : Fragment r f) (torn : f ≠ r) : walk (.outside, 0) f ≠ (.done, 0) := by
  obtain ⟨entries, rfl, tellable⟩ := objects r member
  intro ended
  have stuck := tellable.inner fragment (le_refl 0) torn
  rw [ended] at stuck
  exact not_stuck_done stuck

theorem walk_joined (objects : Objects records) (several : 2 ≤ line.length)
    (fragments : ∀ f ∈ line, ∃ r ∈ records, Fragment r f) :
    walk (.outside, 0) line.flatten ≠ (.done, 0) := by
  intro ended
  obtain ⟨f, more, rfl⟩ : ∃ f more, line = f :: more := List.exists_cons_of_length_pos (by omega)
  obtain ⟨⟨r, member, fragment⟩, others⟩ := List.forall_mem_cons.mp fragments
  obtain ⟨entries, rfl, tellable⟩ := objects r member
  rw [List.flatten_cons, walk_append] at ended
  by_cases whole : f = objectText entries
  · -- Behind a whole object another one starts.
    obtain ⟨g, more, rfl⟩ : ∃ g rest, more = g :: rest :=
      List.exists_cons_of_length_pos (by simp at several; omega)
    obtain ⟨r', member', filled, part⟩ := others g List.mem_cons_self
    obtain ⟨entries', rfl, -⟩ := objects r' member'
    obtain ⟨c, g, rfl⟩ := List.exists_cons_of_ne_nil filled
    obtain ⟨rfl, -⟩ := List.cons_prefix_cons.mp part
    have finished : closing (0 + 1) = (.done, 0) := rfl
    have gone : next (.done, 0) (char '\x7b') = (.lost, 0) := rfl
    rw [whole, tellable.whole (le_refl 0), finished, List.flatten_cons, List.cons_append,
      walk_cons, gone, walk_lost] at ended
    cases ended
  · have stuck := stuck_flatten objects (tellable.inner fragment (le_refl 0) whole) others
    rw [ended] at stuck
    exact not_stuck_done stuck

/-! ### Constants -/

/-- The constants that Python reads beside JSON's. -/
def constants : List (List UInt8) := ["NaN".toList.map char, "Infinity".toList.map char]

/-- The second text is the first with zeros for some constants. -/
inductive Replaces : List UInt8 → List UInt8 → Prop
  | nil : Replaces [] []
  | keep {s t : List UInt8} (c : UInt8) (more : Replaces s t) : Replaces (c :: s) (c :: t)
  | constant {w s t : List UInt8} (known : w ∈ constants) (more : Replaces s t) :
      Replaces (w ++ s) (char '0' :: t)

theorem Replaces.refl (s : List UInt8) : Replaces s s := by
  induction s with
  | nil => exact .nil
  | cons c s ih => exact .keep c ih

theorem walk_constant {w : List UInt8} (known : w ∈ constants) (st : Place × Int) :
    walk st w = walk st [char '0'] := by
  obtain ⟨q, d⟩ := st
  simp only [constants, List.mem_cons, List.not_mem_nil, or_false] at known
  rcases known with rfl | rfl <;> cases q <;> rfl

theorem Replaces.walk (replaces : Replaces s t) (st : Place × Int) :
    Json.walk st s = Json.walk st t := by
  induction replaces generalizing st with
  | nil => rfl
  | keep c more ih => exact ih _
  | constant known more ih => rw [walk_append, walk_constant known, ih]; rfl

theorem Replaces.brace (replaces : Replaces (char '\x7b' :: s) t) :
    ∃ t', t = char '\x7b' :: t' := by
  generalize text : char '\x7b' :: s = u at replaces
  cases replaces with
  | nil => cases text
  | keep c more => exact ⟨_, by rw [(List.cons.inj text).1]⟩
  | constant known more =>
    simp only [constants, List.mem_cons, List.not_mem_nil, or_false] at known
    rcases known with rfl | rfl <;> exact absurd (List.cons.inj text).1 (by decide)

/-- A reader that reads only what parses, with zeros for constants, reads nothing that is torn. -/
theorem refuses_torn {β : Type*} {read : List UInt8 → Option β} (objects : Objects records)
    (sound : ∀ s, (read s).isSome = true → ∃ t, Replaces s t ∧ (parse t).isSome = true) :
    TornLog.RefusesTorn read records := by
  have starts : ∀ {r f : List UInt8}, r ∈ records → Fragment r f → ∃ f', f = char '\x7b' :: f' := by
    intro r f member fragment
    obtain ⟨entries, rfl, -⟩ := objects r member
    obtain ⟨filled, part⟩ := fragment
    obtain ⟨c, f, rfl⟩ := List.exists_cons_of_ne_nil filled
    obtain ⟨rfl, -⟩ := List.cons_prefix_cons.mp part
    exact ⟨f, rfl⟩
  have none : ∀ s, (∃ s', s = char '\x7b' :: s') → walk (.outside, 0) s ≠ (.done, 0) →
      read s = none := by
    rintro s ⟨s', rfl⟩ unended
    rw [← Option.not_isSome_iff_eq_none]
    intro accepted
    obtain ⟨t, replaces, parses⟩ := sound _ accepted
    obtain ⟨t, rfl⟩ := replaces.brace
    obtain ⟨v, parsed⟩ := Option.isSome_iff_exists.mp parses
    exact unended ((replaces.walk _).trans (done_of_parse parsed))
  refine ⟨fun r member f fragment torn => ?_, fun line several fragments => ?_⟩
  · exact none f (starts member fragment) (walk_single objects member fragment torn)
  · refine none _ ?_ (walk_joined objects several fragments)
    obtain ⟨f, more, rfl⟩ : ∃ f more, line = f :: more := List.exists_cons_of_length_pos (by omega)
    obtain ⟨r, member, fragment⟩ := fragments f List.mem_cons_self
    obtain ⟨f, rfl⟩ := starts member fragment
    exact ⟨_, rfl⟩

end Kit.Json
