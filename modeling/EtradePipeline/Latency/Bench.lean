import EtradePipeline.Kit.BigEndian
import EtradePipeline.Kit.Csv
import EtradePipeline.Receiver.Width
import EtradePipeline.Service.Analysis

/-! The latency bench: the packets of `udp_bench_sender`, and the file that `udp_latency_server`
writes of the datagrams that it receives.  A packet starts with its number and its time, which come
back in its row. -/

namespace EtradePipeline

open Kit.BigEndian
open Kit.Csv (Plain PlainRow rowText rows textLines rows_written)
open Kit.TornLog (framed)

/-! ### Packets -/

/-- The packet with a number and a time, both from the highest byte on, filled up to the payload's
size. -/
def benchPacket (payloadSize : Nat) (seq tsNs : UInt64) : Bytes :=
  bigEndian 8 seq.toNat ++ bigEndian 8 tsNs.toNat ++ List.replicate (max payloadSize 16 - 16) 0xAA

/-- The packets of a run, one for each reading of the clock. -/
def benchPackets (payloadSize : Nat) (clock : List UInt64) : List Bytes :=
  clock.mapIdx fun i tsNs => benchPacket payloadSize (UInt64.ofNat (i + 1)) tsNs

/-! ### The server -/

/-- A datagram, and the clock after its `recv`. -/
structure Received where
  data : Bytes
  recvNs : UInt64

structure LatencyRow where
  seq : UInt64
  sendNs : UInt64
  recvNs : UInt64
  latencyUs : UInt64

/-- What the server makes of a datagram.  One of fewer than 16 bytes has no row. -/
def latencyRow (r : Received) : Option LatencyRow :=
  if 16 ≤ r.data.length then
    let seq := UInt64.ofNat (ofBigEndian (r.data.take 8))
    let sendNs := UInt64.ofNat (ofBigEndian ((r.data.drop 8).take 8))
    some ⟨seq, sendNs, r.recvNs, if sendNs < r.recvNs then (r.recvNs - sendNs) / 1000 else 0⟩
  else none

namespace LatencyRow

def fields (row : LatencyRow) : List Bytes :=
  [row.seq, row.sendNs, row.recvNs, row.latencyUs].map fun v => printNat v.toNat

/-- The line of the row. -/
def text (row : LatencyRow) : Bytes :=
  printNat row.seq.toNat ++ bytes "," ++ printNat row.sendNs.toNat ++ bytes "," ++
    printNat row.recvNs.toNat ++ bytes "," ++ printNat row.latencyUs.toNat ++ bytes "\n"

end LatencyRow

/-- The file when the server has stopped. -/
def latencyFile (received : List Received) : Bytes :=
  bytes "seq,send_ns,recv_ns,latency_us\n" ++
    (received.filterMap latencyRow).flatMap LatencyRow.text

/-! ### Rows -/

theorem length_benchPacket (payloadSize : Nat) (seq tsNs : UInt64) :
    16 ≤ (benchPacket payloadSize seq tsNs).length := by
  simp only [benchPacket, List.length_append, length_bigEndian]
  omega

/-- The latency in whole microseconds, and 0 when the clock of the packet is ahead. -/
def elapsedUs (sendNs recvNs : Nat) : Nat := (recvNs - sendNs) / 1000

theorem latencyUs_toNat (sendNs recvNs : UInt64) :
    (if sendNs < recvNs then (recvNs - sendNs) / 1000 else 0).toNat =
      elapsedUs sendNs.toNat recvNs.toNat := by
  unfold elapsedUs
  split_ifs with later
  · have before := UInt64.lt_iff_toNat_lt.mp later
    rw [UInt64.toNat_div, UInt64.toNat_sub_of_le _ _ (UInt64.le_of_lt later)]
    rfl
  · have ahead := not_lt.mp (mt UInt64.lt_iff_toNat_lt.mpr later)
    rw [Nat.sub_eq_zero_of_le ahead]
    rfl

/-- The row of a packet has its number and its time. -/
theorem latencyRow_benchPacket (payloadSize : Nat) (seq tsNs recvNs : UInt64) :
    ∃ row, latencyRow ⟨benchPacket payloadSize seq tsNs, recvNs⟩ = some row ∧
      row.seq = seq ∧ row.sendNs = tsNs ∧ row.recvNs = recvNs ∧
      row.latencyUs.toNat = elapsedUs tsNs.toNat recvNs.toNat := by
  have number : (benchPacket payloadSize seq tsNs).take 8 = bigEndian 8 seq.toNat := by
    rw [benchPacket, List.append_assoc, List.take_left' (length_bigEndian ..)]
  have time : ((benchPacket payloadSize seq tsNs).drop 8).take 8 = bigEndian 8 tsNs.toNat := by
    rw [benchPacket, List.append_assoc, List.drop_left' (length_bigEndian ..),
      List.take_left' (length_bigEndian ..)]
  have back : ∀ v : UInt64, UInt64.ofNat (ofBigEndian (bigEndian 8 v.toNat)) = v := by
    intro v
    have small : v.toNat % 256 ^ 8 = v.toNat := Nat.mod_eq_of_lt v.toNat_lt
    rw [ofBigEndian_bigEndian, small, UInt64.ofNat_toNat]
  refine ⟨_, by rw [latencyRow, if_pos (length_benchPacket ..)], ?_, ?_, rfl, ?_⟩
  · simp only [number, back]
  · simp only [time, back]
  · simp only [time, back]
    exact latencyUs_toNat tsNs recvNs

/-! ### The file -/

/-- The cells of a row as characters. -/
def cells (fields : List Bytes) : List PyStr := fields.map (List.map UInt8.toNat)

def latencyHeader : List Bytes :=
  [bytes "seq", bytes "send_ns", bytes "recv_ns", bytes "latency_us"]

/-- The rows of the file, the header first. -/
def latencyTable (received : List Received) : List (List PyStr) :=
  cells latencyHeader :: (received.filterMap latencyRow).map fun row => cells row.fields

theorem plain_number (v : UInt64) : Plain ((printNat v.toNat).map UInt8.toNat) where
  marks := by
    have digits : ∀ d : Fin 10, (digitByte d).toNat ≠ Kit.Csv.comma ∧
      (digitByte d).toNat ≠ Kit.Csv.quote ∧
        (digitByte d).toNat ≠ Kit.Csv.newline ∧ (digitByte d).toNat ≠ Kit.Csv.carriageReturn := by
      decide
    intro c member
    rw [printNat_eq, digitText, List.map_map] at member
    obtain ⟨d, -, rfl⟩ := List.mem_map.mp member
    exact digits d
  short := by
    have small : v.toNat < 10 ^ 20 := lt_of_lt_of_le v.toNat_lt (by decide)
    have width := (natWidth_le_iff (by decide : 0 < 20)).mpr small
    rw [List.length_map, length_printNat]
    exact width.trans (by decide)

theorem plainRow_header : PlainRow (cells latencyHeader) := by
  have names : (∀ f ∈ cells latencyHeader, (∀ c ∈ f, c ≠ Kit.Csv.comma ∧ c ≠ Kit.Csv.quote ∧
      c ≠ Kit.Csv.newline ∧ c ≠ Kit.Csv.carriageReturn) ∧ f.length ≤ Kit.Csv.fieldLimit) ∧
      rowText (cells latencyHeader) ≠ [] := by
    decide +kernel
  exact ⟨fun f member => ⟨(names.1 f member).1, (names.1 f member).2⟩, names.2⟩

theorem plainRow_fields (row : LatencyRow) : PlainRow (cells row.fields) where
  plain := by
    intro f member
    obtain ⟨text, listed, rfl⟩ := List.mem_map.mp member
    obtain ⟨v, -, rfl⟩ := List.mem_map.mp listed
    exact plain_number v
  visible := by simp [rowText, cells, LatencyRow.fields, List.intercalate_cons_cons]

theorem rowText_cells (fields : List Bytes) :
    rowText (cells fields) = ([byte ','].intercalate fields).map UInt8.toNat := by
  induction fields with
  | nil => rfl
  | cons f fields ih =>
    cases fields with
    | nil => simp [rowText, cells]
    | cons g fields =>
      unfold rowText cells at ih ⊢
      rw [List.map_cons, List.map_cons, List.intercalate_cons_cons, List.intercalate_cons_cons,
        List.map_append, List.map_append, ← ih]
      rfl

namespace LatencyRow

theorem text_eq (row : LatencyRow) :
    row.text = [byte ','].intercalate row.fields ++ [byte '\n'] := by
  simp [text, fields, bytes, byte, List.intercalate_cons_cons]

theorem text_subset (row : LatencyRow) : row.text ⊆ numeralBytes ++ bytes ",\n" := by
  have number : ∀ n, printNat n ⊆ numeralBytes ++ bytes ",\n" := fun n c member =>
    List.mem_append_left _ (digitText_subset _ (printNat_eq n ▸ member))
  have sep : bytes "," ⊆ numeralBytes ++ bytes ",\n" := fun c member =>
    List.mem_append_right _ (List.mem_append_left [byte '\n'] member)
  have ending : bytes "\n" ⊆ numeralBytes ++ bytes ",\n" := fun c member =>
    List.mem_append_right _ (List.mem_append_right [byte ','] member)
  simp only [text, List.append_subset]
  exact ⟨⟨⟨⟨⟨⟨⟨number _, sep⟩, number _⟩, sep⟩, number _⟩, sep⟩, number _⟩, ending⟩

end LatencyRow

/-- The file has no carriage returns, and is in ASCII. -/
theorem latencyFile_plain (received : List Received) :
    ∀ c ∈ latencyFile received, c < 128 ∧ c ≠ 13 := by
  have written : ∀ c ∈ bytes "seq,send_ns,recv_ns,latency_us\n" ++ (numeralBytes ++ bytes ",\n"),
      c < 128 ∧ c ≠ 13 := by
    decide +kernel
  intro c member
  apply written
  rcases List.mem_append.mp member with header | row
  · exact List.mem_append_left _ header
  · obtain ⟨row, -, inside⟩ := List.mem_flatMap.mp row
    exact List.mem_append_right _ (row.text_subset inside)

theorem latencyFile_eq (received : List Received) :
    (latencyFile received).map UInt8.toNat =
      framed Kit.Csv.newline ((latencyTable received).map rowText) := by
  have header : bytes "seq,send_ns,recv_ns,latency_us\n" =
      [byte ','].intercalate latencyHeader ++ [byte '\n'] := by
    decide +kernel
  have texts : latencyFile received = framed (byte '\n') ([byte ','].intercalate latencyHeader ::
      (received.filterMap latencyRow).map fun row => [byte ','].intercalate row.fields) := by
    rw [latencyFile, header, framed, List.flatMap_cons, List.flatMap_map]
    exact congrArg _ (List.flatMap_congr fun row _ => row.text_eq)
  rw [texts, Kit.TornLog.map_framed]
  refine congrArg _ ?_
  rw [latencyTable, List.map_cons, List.map_cons, rowText_cells, List.map_map, List.map_map]
  exact congrArg _ (List.map_congr_left fun row _ => (rowText_cells row.fields).symm)

/-- `csv.reader` reads the rows of the file. -/
theorem rows_latencyFile (received : List Received) :
    rows (textLines ((latencyFile received).map UInt8.toNat)) = some (latencyTable received) := by
  rw [latencyFile_eq]
  apply rows_written
  refine List.forall_mem_cons.mpr ⟨plainRow_header, fun row member => ?_⟩
  obtain ⟨latency, -, rfl⟩ := List.mem_map.mp member
  exact plainRow_fields latency

end EtradePipeline
