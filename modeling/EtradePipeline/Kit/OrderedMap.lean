import Mathlib.Order.Defs.Unbundled
import Mathlib.Tactic.SplitIfs

/-! Maps ordered by a comparator, as lists of entries in ascending order.  Two keys are equivalent
when neither compares less.  The comparator is only required to be transitive, so that keys which
compare with nothing are allowed: such a key is equivalent to every other.  On a set of keys where
the comparator is a strict total order (`TotalOn`), equivalent keys are equal, and `get?` after
`set` and `erase` is as for a function that is updated. -/

namespace Kit

/-- A map whose entries are in ascending order of their keys. -/
structure OrderedMap (K V : Type*) (lt : K → K → Bool) where
  entries : List (K × V)
  sorted : entries.Pairwise fun a b => lt a.1 b.1 = true

namespace OrderedMap

variable {K V : Type*} {lt : K → K → Bool}

/-- The keys in `S` are compared by a strict total order. -/
structure TotalOn (lt : K → K → Bool) (S : K → Prop) : Prop where
  irrefl : ∀ a, S a → lt a a = false
  connected : ∀ a b, S a → S b → lt a b = false → lt b a = false → a = b

/-- Neither key compares less than the other. -/
def equiv (lt : K → K → Bool) (a b : K) : Bool := !lt a b && !lt b a

theorem equiv_iff {S : K → Prop} (total : TotalOn lt S) {a b : K} (ha : S a) (hb : S b) :
    equiv lt a b = true ↔ a = b := by
  simp only [equiv, Bool.and_eq_true, Bool.not_eq_true']
  constructor
  · exact fun h => total.connected a b ha hb h.1 h.2
  · rintro rfl
    exact ⟨total.irrefl a ha, total.irrefl a ha⟩

/-- The value of the first entry with a key equivalent to `k`. -/
def find (lt : K → K → Bool) (k : K) (es : List (K × V)) : Option V :=
  (es.find? fun e => equiv lt e.1 k).map Prod.snd

/-- Gives `k` the value `v`: at the first entry whose key does not compare less than `k`, when that
entry is equivalent, and otherwise in a new entry before it. -/
def assign (lt : K → K → Bool) (k : K) (v : V) : List (K × V) → List (K × V)
  | [] => [(k, v)]
  | e :: rest =>
    if lt e.1 k then e :: assign lt k v rest
    else if lt k e.1 then (k, v) :: e :: rest
    else (e.1, v) :: rest

/-- Drops every entry with a key equivalent to `k`. -/
def discard (lt : K → K → Bool) (k : K) (es : List (K × V)) : List (K × V) :=
  es.filter fun e => !equiv lt e.1 k

theorem mem_assign {k : K} {v : V} {es : List (K × V)} {x : K × V} (h : x ∈ assign lt k v es) :
    x ∈ es ∨ x.2 = v ∧ (x.1 = k ∨ x.1 ∈ es.map Prod.fst) := by
  induction es with
  | nil => exact .inr (by simp_all [assign])
  | cons e rest ih =>
    simp only [assign] at h
    split at h
    · rcases List.mem_cons.mp h with rfl | h
      · simp
      · rcases ih h with old | ⟨value, key⟩
        · simp [old]
        · exact .inr ⟨value, key.imp_right fun h => List.mem_cons_of_mem _ h⟩
    · split at h
      · rcases List.mem_cons.mp h with rfl | h
        · simp
        · exact .inl h
      · rcases List.mem_cons.mp h with rfl | h
        · simp
        · simp [h]

/-- The value is stored, at the key or at one equivalent to it. -/
theorem exists_assign {k : K} (irrefl : lt k k = false) (v : V) (es : List (K × V)) :
    ∃ e ∈ assign lt k v es, e.2 = v ∧ equiv lt e.1 k = true := by
  induction es with
  | nil => exact ⟨(k, v), List.mem_cons_self, rfl, by simp [equiv, irrefl]⟩
  | cons e rest ih =>
    simp only [assign]
    split
    · obtain ⟨x, hx, stored⟩ := ih
      exact ⟨x, List.mem_cons_of_mem _ hx, stored⟩
    · split
      · exact ⟨(k, v), List.mem_cons_self, rfl, by simp [equiv, irrefl]⟩
      · rename_i below above
        exact ⟨(e.1, v), List.mem_cons_self, rfl, by simp [equiv, below, above]⟩

theorem assign_sorted [IsTrans K fun a b => lt a b = true] (k : K) (v : V) {es : List (K × V)}
    (sorted : es.Pairwise fun a b => lt a.1 b.1 = true) :
    (assign lt k v es).Pairwise fun a b => lt a.1 b.1 = true := by
  induction es with
  | nil => simp [assign]
  | cons e rest ih =>
    obtain ⟨first, others⟩ := List.pairwise_cons.mp sorted
    simp only [assign]
    split
    · rename_i below
      refine List.pairwise_cons.mpr ⟨fun x hx => ?_, ih others⟩
      rcases mem_assign hx with old | ⟨-, key | key⟩
      · exact first x old
      · rw [key]; exact below
      · obtain ⟨y, hy, same⟩ := List.mem_map.mp key
        rw [← same]; exact first y hy
    · split
      · rename_i above
        refine List.pairwise_cons.mpr ⟨fun x hx => ?_, sorted⟩
        rcases List.mem_cons.mp hx with rfl | hx
        · exact above
        · exact IsTrans.trans (r := fun a b => lt a b = true) _ _ _ above (first x hx)
      · exact List.pairwise_cons.mpr ⟨first, others⟩

def empty : OrderedMap K V lt := ⟨[], .nil⟩

def get? (m : OrderedMap K V lt) (k : K) : Option V := find lt k m.entries

def set [IsTrans K fun a b => lt a b = true] (m : OrderedMap K V lt) (k : K) (v : V) :
    OrderedMap K V lt :=
  ⟨assign lt k v m.entries, assign_sorted k v m.sorted⟩

def erase (m : OrderedMap K V lt) (k : K) : OrderedMap K V lt :=
  ⟨discard lt k m.entries, m.sorted.sublist List.filter_sublist⟩

/-- The map with other entries, whose keys are some of those of `m` in the same order. -/
def withEntries (m : OrderedMap K V lt) (es : List (K × V))
    (keys : (es.map Prod.fst).Sublist (m.entries.map Prod.fst)) : OrderedMap K V lt :=
  ⟨es, by
    have ordered : (m.entries.map Prod.fst).Pairwise fun a b => lt a b = true :=
      List.pairwise_map.mpr m.sorted
    exact List.pairwise_map.mp (ordered.sublist keys)⟩

@[simp] theorem empty_entries : (empty : OrderedMap K V lt).entries = [] := rfl

@[simp] theorem withEntries_entries (m : OrderedMap K V lt) (es : List (K × V))
    (keys : (es.map Prod.fst).Sublist (m.entries.map Prod.fst)) :
    (m.withEntries es keys).entries = es := rfl

@[simp] theorem get?_empty (k : K) : (empty : OrderedMap K V lt).get? k = none := rfl

theorem ext_entries {m n : OrderedMap K V lt} (h : m.entries = n.entries) : m = n := by
  cases m; cases n; simpa using h

instance [DecidableEq K] [DecidableEq V] : DecidableEq (OrderedMap K V lt) := fun m n =>
  decidable_of_iff (m.entries = n.entries) ⟨ext_entries, congrArg entries⟩

/-- Every value of the map meets `P`. -/
def Values (P : V → Prop) (m : OrderedMap K V lt) : Prop := ∀ e ∈ m.entries, P e.2

/-- Every key of the map is in `S`. -/
def KeysIn (S : K → Prop) (m : OrderedMap K V lt) : Prop := ∀ e ∈ m.entries, S e.1

section Preserved

variable [IsTrans K fun a b => lt a b = true] {m : OrderedMap K V lt} {k : K} {v : V}

theorem Values.set {P : V → Prop} (h : m.Values P) (hv : P v) : (m.set k v).Values P := by
  intro e he
  rcases mem_assign he with old | ⟨rfl, -⟩
  · exact h e old
  · exact hv

theorem KeysIn.set {S : K → Prop} (h : m.KeysIn S) (hk : S k) : (m.set k v).KeysIn S := by
  intro e he
  rcases mem_assign he with old | ⟨-, rfl | key⟩
  · exact h e old
  · exact hk
  · obtain ⟨y, hy, same⟩ := List.mem_map.mp key
    exact same ▸ h y hy

omit [IsTrans K fun a b => lt a b = true] in
theorem Values.erase {P : V → Prop} (h : m.Values P) : (m.erase k).Values P :=
  fun e he => h e (List.mem_filter.mp he).1

omit [IsTrans K fun a b => lt a b = true] in
theorem KeysIn.erase {S : K → Prop} (h : m.KeysIn S) : (m.erase k).KeysIn S :=
  fun e he => h e (List.mem_filter.mp he).1

end Preserved

section Total

variable {S : K → Prop} (total : TotalOn lt S)
include total

theorem find_cons {e : K × V} {es : List (K × V)} {k : K} [DecidableEq K] (he : S e.1)
    (hk : S k) : find lt k (e :: es) = if e.1 = k then some e.2 else find lt k es := by
  simp only [find, List.find?_cons]
  by_cases same : e.1 = k
  · rw [(equiv_iff total he hk).mpr same, if_pos same]
    rfl
  · have : equiv lt e.1 k = false := by
      simpa using fun h => same ((equiv_iff total he hk).mp h)
    simp [this, same]

theorem find_eq_none {es : List (K × V)} {k : K} (keys : ∀ e ∈ es, S e.1) (hk : S k) :
    find lt k es = none ↔ ∀ e ∈ es, e.1 ≠ k := by
  simp only [find, Option.map_eq_none_iff, List.find?_eq_none]
  exact forall₂_congr fun e he => not_congr (equiv_iff total (keys e he) hk)

theorem find_assign [DecidableEq K] {es : List (K × V)} {k j : K} {v : V}
    (keys : ∀ e ∈ es, S e.1) (hk : S k) (hj : S j) :
    find lt j (assign lt k v es) = if k = j then some v else find lt j es := by
  induction es with
  | nil => rw [assign, find_cons total hk hj]
  | cons e rest ih =>
    have he := keys e List.mem_cons_self
    have ih := ih fun x hx => keys x (List.mem_cons_of_mem _ hx)
    simp only [assign]
    split
    · rename_i below
      have ne : e.1 ≠ k := by
        rintro rfl
        simp [total.irrefl _ hk] at below
      rw [find_cons total he hj, find_cons total he hj, ih]
      split_ifs with h1 h2 <;> simp_all
    · split
      · rw [find_cons total hk hj]
      · rename_i below above
        have same : e.1 = k :=
          total.connected _ _ he hk (by simpa using below) (by simpa using above)
        rw [find_cons total (e := (e.1, v)) he hj, find_cons total he hj, same]
        split_ifs <;> rfl

theorem find_discard [DecidableEq K] {es : List (K × V)} {k j : K} (keys : ∀ e ∈ es, S e.1)
    (hk : S k) (hj : S j) :
    find lt j (discard lt k es) = if k = j then none else find lt j es := by
  induction es with
  | nil => simp [discard, find]
  | cons e rest ih =>
    have he := keys e List.mem_cons_self
    have ih := ih fun x hx => keys x (List.mem_cons_of_mem _ hx)
    simp only [discard, List.filter_cons] at ih ⊢
    by_cases same : e.1 = k
    · simp only [(equiv_iff total he hk).mpr same, Bool.not_true, Bool.false_eq_true, if_false, ih]
      rw [find_cons total he hj, same]
      split_ifs <;> rfl
    · have : equiv lt e.1 k = false := by
        simpa using fun h => same ((equiv_iff total he hk).mp h)
      simp only [this, Bool.not_false, if_true]
      rw [find_cons total he hj, find_cons total he hj, ih]
      split_ifs <;> simp_all

variable [DecidableEq K] {m : OrderedMap K V lt} {k j : K} {v : V}

theorem get?_set [IsTrans K fun a b => lt a b = true] (keys : m.KeysIn S) (hk : S k) (hj : S j) :
    (m.set k v).get? j = if k = j then some v else m.get? j :=
  find_assign total keys hk hj

theorem get?_erase (keys : m.KeysIn S) (hk : S k) (hj : S j) :
    (m.erase k).get? j = if k = j then none else m.get? j :=
  find_discard total keys hk hj

omit m j v in
theorem filter_ne_assign {es : List (K × V)} {k : K} {v : V} (keys : ∀ e ∈ es, S e.1) (hk : S k) :
    (assign lt k v es).filter (fun e => e.1 ≠ k) = es.filter fun e => e.1 ≠ k := by
  induction es with
  | nil => simp [assign]
  | cons e rest ih =>
    have he := keys e List.mem_cons_self
    have ih := ih fun x hx => keys x (List.mem_cons_of_mem _ hx)
    simp only [assign]
    split
    · rw [List.filter_cons, List.filter_cons, ih]
    · split
      · simp
      · rename_i below above
        have same : e.1 = k :=
          total.connected _ _ he hk (by simpa using below) (by simpa using above)
        simp [same]

omit m j v in
theorem filter_ne_discard {es : List (K × V)} {k : K} (keys : ∀ e ∈ es, S e.1) (hk : S k) :
    (discard lt k es).filter (fun e => e.1 ≠ k) = es.filter fun e => e.1 ≠ k := by
  rw [discard, List.filter_filter]
  refine List.filter_congr fun e he => ?_
  have := equiv_iff total (keys e he) hk
  by_cases same : e.1 = k
  · simp [same]
  · have : equiv lt e.1 k = false := by simpa [same] using this
    simp [this]

omit m k j in
theorem filter_key {es : List (K × V)} {k : K} (keys : ∀ e ∈ es, S e.1) (hk : S k)
    (sorted : es.Pairwise fun a b => lt a.1 b.1 = true) :
    (es.filter fun e => e.1 = k).map Prod.snd = (find lt k es).toList := by
  induction es with
  | nil => rfl
  | cons e es ih =>
    obtain ⟨first, others⟩ := List.pairwise_cons.mp sorted
    have rest := ih (fun x hx => keys x (List.mem_cons_of_mem _ hx)) others
    rw [find_cons total (keys e List.mem_cons_self) hk, List.filter_cons]
    by_cases same : e.1 = k
    · have none : es.filter (fun x => x.1 = k) = [] := by
        refine List.filter_eq_nil_iff.mpr fun x hx equal => ?_
        have := first x hx
        rw [of_decide_eq_true equal, same, total.irrefl k hk] at this
        cases this
      simp [same, none]
    · simp [same, rest]

end Total

end OrderedMap

end Kit
