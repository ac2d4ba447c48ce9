import EtradePipeline.Receiver.Stod

/-! The parser of a datagram (`split_sv`, `to_ll`, `to_double` and the field checks of
`run_udp_receiver`, which both of its receive paths make): five fields between vertical bars. -/

namespace EtradePipeline

/-- `sv.find(delim, pos)`. -/
def find (sv : Bytes) (delim : UInt8) (pos : Nat) : Option Nat :=
  ((sv.drop pos).findIdx? (· = delim)).map (pos + ·)

/-- The loop of `split_sv` from `pos` on, or `none` when it has not ended after `fuel` rounds. -/
def splitFrom (sv : Bytes) (delim : UInt8) : Nat → Nat → Option (List Bytes)
  | 0, _ => none
  | fuel + 1, pos =>
    if pos ≤ sv.length then
      match find sv delim pos with
      | none => some [sv.drop pos]
      | some next =>
        (splitFrom sv delim fuel (next + 1)).map fun out => (sv.drop pos).take (next - pos) :: out
    else some []

theorem find_bounds {sv : Bytes} {delim : UInt8} {pos next : Nat}
    (found : find sv delim pos = some next) : pos ≤ next ∧ next < sv.length := by
  obtain ⟨i, first, rfl⟩ := Option.map_eq_some_iff.mp found
  have bound := (List.findIdx?_eq_some_iff_findIdx_eq.mp first).1
  rw [List.length_drop] at bound
  omega

/-- The loop ends: each round but the last passes a delimiter. -/
theorem splitFrom_ends (sv : Bytes) (delim : UInt8) (fuel pos : Nat) (inside : pos ≤ sv.length)
    (enough : sv.length < fuel + pos) : (splitFrom sv delim fuel pos).isSome = true := by
  induction fuel generalizing pos with
  | zero => omega
  | succ fuel ih =>
    rw [splitFrom, if_pos inside]
    cases found : find sv delim pos with
    | none => rfl
    | some next =>
      have bounds := find_bounds found
      rw [Option.isSome_map]
      exact ih (next + 1) (by omega) (by omega)

def splitSv (sv : Bytes) (delim : UInt8) : List Bytes :=
  (splitFrom sv delim (sv.length + 1) 0).get
    (splitFrom_ends sv delim _ 0 (Nat.zero_le _) (by omega))

/-- The digit loop of `to_ll`. -/
def toLlDigits : Int → Bytes → Option Int
  | v, [] => some v
  | v, c :: cs =>
    if c < byte '0' ∨ byte '9' < c then none
    else toLlDigits (wrap64 (wrap64 (v * 10) + (c - byte '0').toNat)) cs

/-- `to_ll`.  An overflow wraps around. -/
def toLl (sv : Bytes) : Option Int :=
  match sv with
  | [] => none
  | c :: cs =>
    if c = byte '-' then
      if cs = [] then none else (toLlDigits 0 cs).map fun v => wrap64 (-v)
    else toLlDigits 0 (c :: cs)

/-- What the receiver reads out of a datagram. -/
structure Fields where
  seq : Int
  msgTs : Int
  symbol : Bytes
  price : Double
  size : Int
  deriving DecidableEq

/-- Why a datagram is refused, with what the log line shows of it. -/
inductive ParseError where
  | fieldCount (n : Nat)
  | invalidSeq (token : Bytes)
  | invalidMsgTs (token : Bytes)
  | invalidPrice (token : Bytes)
  | invalidSize (token : Bytes)
  deriving DecidableEq

/-- The parse of a datagram's bytes.  `toDouble` converts the price, as `to_double` does by way of
`std::stod`. -/
def parse (toDouble : Bytes → Option Double) (sv : Bytes) : Except ParseError Fields :=
  match splitSv sv (byte '|') with
  | [t0, t1, t2, t3, t4] => do
    let seq ← (toLl t0).elim (throw (.invalidSeq t0)) pure
    let msgTs ← (toLl t1).elim (throw (.invalidMsgTs t1)) pure
    let price ← (toDouble t3).elim (throw (.invalidPrice t3)) pure
    let size ← (toLl t4).elim (throw (.invalidSize t4)) pure
    return ⟨seq, msgTs, t2, price, size⟩
  | tokens => throw (.fieldCount tokens.length)

end EtradePipeline
