import Restore.Verification.Pcap.Bounds
import Mathlib.Data.List.GetD

/-! # Captures

A capture is a file header and a list of records, each a record header and a frame. A record
of a capture that lies in a buffer is read back from where it stands. -/

namespace Restore.Pcap

open Fetch

/-! ## Captures -/

/-- The bytes of a list as a memory that starts at 0. -/
def memoryOf (bytes : List UInt8) (i : ℕ) : UInt8 := bytes.getD i 0

def Stores (mem : ℕ → UInt8) (start : ℕ) (bytes : List UInt8) : Prop :=
  ∀ i < bytes.length, mem (start + i) = memoryOf bytes i

/-- A captured frame that has all the fields its type selects. -/
structure Record where
  timestamp : UInt32
  microseconds : UInt32
  lengthWire : UInt32
  frame : List UInt8
  frame_lt : frame.length < 2 ^ 32
  complete : headerSpan (memoryOf frame) 0 ≤ frame.length

def littleEndian (v : ℕ) : List UInt8 := (List.range 4).map (byteOf v)

def Record.encode (record : Record) : List UInt8 :=
  littleEndian record.timestamp.toNat ++ (littleEndian record.microseconds.toNat ++
    (littleEndian record.frame.length ++ (littleEndian record.lengthWire.toNat ++
      record.frame)))

def image (header : List UInt8) (records : List Record) : List UInt8 :=
  header ++ records.flatMap Record.encode

/-- A captured frame of any length, be it shorter than the fields its type selects. -/
structure RawRecord where
  timestamp : UInt32
  microseconds : UInt32
  lengthWire : UInt32
  frame : List UInt8
  frame_lt : frame.length < 2 ^ 32

def RawRecord.encode (record : RawRecord) : List UInt8 :=
  littleEndian record.timestamp.toNat ++ (littleEndian record.microseconds.toNat ++
    (littleEndian record.frame.length ++ (littleEndian record.lengthWire.toNat ++
      record.frame)))

def Record.raw (record : Record) : RawRecord :=
  ⟨record.timestamp, record.microseconds, record.lengthWire, record.frame, record.frame_lt⟩

def rawImage (header : List UInt8) (records : List RawRecord) : List UInt8 :=
  header ++ records.flatMap RawRecord.encode

/-- The buffer holds the file `bytes`. -/
structure Mmap.Holds (buff : Mmap) (bytes : List UInt8) : Prop where
  length_eq : buff.length = bytes.length
  stores : Stores buff.data 0 bytes

/-! ## Bytes of a record -/

theorem stores_append {mem : ℕ → UInt8} {start : ℕ} {l l' : List UInt8} :
    Stores mem start (l ++ l') ↔ Stores mem start l ∧ Stores mem (start + l.length) l' := by
  have hleft : ∀ i < l.length, memoryOf (l ++ l') i = memoryOf l i := fun i hi =>
    List.getD_append l l' 0 i hi
  have hright : ∀ i, memoryOf (l ++ l') (l.length + i) = memoryOf l' i := by
    intro i
    rw [memoryOf, List.getD_append_right _ _ _ _ (Nat.le_add_right _ _), Nat.add_sub_cancel_left]
    rfl
  simp only [Stores, List.length_append]
  constructor
  · intro h
    refine ⟨fun i hi => ?_, fun i hi => ?_⟩
    · rw [h i (by omega), hleft i hi]
    · rw [Nat.add_assoc, h (l.length + i) (by omega), hright]
  · rintro ⟨hl, hl'⟩ i hi
    by_cases hlt : i < l.length
    · rw [hl i hlt, hleft i hlt]
    · obtain ⟨j, rfl⟩ := Nat.exists_eq_add_of_le (Nat.le_of_not_lt hlt)
      rw [← Nat.add_assoc, hl' j (by omega), hright]

@[simp] theorem length_littleEndian (v : ℕ) : (littleEndian v).length = 4 := rfl

/-- A word written in host order is read back. -/
theorem load32_littleEndian {mem : ℕ → UInt8} {start v : ℕ} (hv : v < 2 ^ 32)
    (hmem : Stores mem start (littleEndian v)) :
    ((load32 start).value mem).toNat = v := by
  have hbyte : ∀ i < 4, (mem (start + i)).toNat = v / 2 ^ (8 * i) % 2 ^ 8 := by
    intro i hi
    rw [hmem i hi, ← byteOf_toNat]
    simp [memoryOf, littleEndian, hi]
  have h0 := hbyte 0 (by decide)
  have h1 := hbyte 1 (by decide)
  have h2 := hbyte 2 (by decide)
  have h3 := hbyte 3 (by decide)
  rw [Nat.add_zero] at h0
  simp only [value_load32, UInt32.toNat_ofNat', h0, h1, h2, h3]
  omega

/-- The words of a record header, and the frame after them. -/
theorem RawRecord.words (record : RawRecord) {mem : ℕ → UInt8} {offset : ℕ}
    (hmem : Stores mem offset record.encode) :
    ((load32 offset).value mem).toNat = record.timestamp.toNat ∧
      ((load32 (offset + 4)).value mem).toNat = record.microseconds.toNat ∧
      (packetLengthAt mem offset).toNat = record.frame.length ∧
      Stores mem (offset + packetHeaderSize) record.frame := by
  simp only [RawRecord.encode, stores_append, length_littleEndian] at hmem
  obtain ⟨htimestamp, hmicroseconds, hlength, -, hframe⟩ := hmem
  refine ⟨load32_littleEndian record.timestamp.toNat_lt htimestamp,
    load32_littleEndian record.microseconds.toNat_lt hmicroseconds, ?_, hframe⟩
  exact load32_littleEndian record.frame_lt hlength

theorem Record.words (record : Record) {mem : ℕ → UInt8} {offset : ℕ}
    (hmem : Stores mem offset record.encode) :
    ((load32 offset).value mem).toNat = record.timestamp.toNat ∧
      ((load32 (offset + 4)).value mem).toNat = record.microseconds.toNat ∧
      (packetLengthAt mem offset).toNat = record.frame.length ∧
      Stores mem (offset + packetHeaderSize) record.frame :=
  record.raw.words hmem

theorem rawImage_split {header : List UInt8} {records : List RawRecord} {i : ℕ}
    {record : RawRecord} (hi : records[i]? = some record) :
    rawImage header records = rawImage header (records.take i) ++
      (record.encode ++ (records.drop (i + 1)).flatMap RawRecord.encode) := by
  obtain ⟨hlt, rfl⟩ := List.getElem?_eq_some_iff.mp hi
  have hrecords : records.take i ++ records[i] :: records.drop (i + 1) = records := by
    rw [← List.drop_eq_getElem_cons hlt, List.take_append_drop]
  rw [← List.flatMap_cons, rawImage, rawImage, List.append_assoc, ← List.flatMap_append, hrecords]

theorem stores_record {buff : Mmap} {header : List UInt8} {records : List RawRecord} {i : ℕ}
    {record : RawRecord} (hbuff : buff.Holds (rawImage header records))
    (hi : records[i]? = some record) :
    Stores buff.data (rawImage header (records.take i)).length record.encode ∧
      (rawImage header (records.take i)).length ≤ buff.length := by
  have hstores := hbuff.stores
  rw [rawImage_split hi, stores_append, stores_append, Nat.zero_add] at hstores
  refine ⟨hstores.2.1, ?_⟩
  rw [hbuff.length_eq, rawImage_split hi, List.length_append]
  exact Nat.le_add_right _ _

theorem length_rawImage_succ (header : List UInt8) {records : List RawRecord} {k : ℕ}
    (hk : k < records.length) : (rawImage header (records.take (k + 1))).length =
      (rawImage header (records.take k)).length + packetHeaderSize + records[k].frame.length := by
  simp only [List.take_succ_eq_append_getElem hk, rawImage, List.flatMap_append,
    List.flatMap_singleton, List.length_append, RawRecord.encode, length_littleEndian,
    packetHeaderSize]
  omega

/-! ## Frames at two places -/

theorem le_headerSpan (mem : ℕ → UInt8) (start : ℕ) : 14 ≤ headerSpan mem start := by
  unfold headerSpan
  split
  · omega
  · split <;> omega

theorem le_headerSpan_of_isIpv4 {mem : ℕ → UInt8} {start : ℕ} (h : IsIpv4 mem start) :
    34 ≤ headerSpan mem start := by
  unfold headerSpan
  split <;> omega

/-- A complete frame is parsed alike wherever it stands. -/
theorem frame_congr (mem mem' : ℕ → UInt8) (start start' : ℕ)
    (h : ∀ i < headerSpan mem' start', mem (start + i) = mem' (start' + i)) :
    (HasPorts mem start ↔ HasPorts mem' start') ∧
      (HasPorts mem' start' → ∀ tvSec tvUsec,
        framePacket mem start tvSec tvUsec = framePacket mem' start' tvSec tvUsec) := by
  have hspan := le_headerSpan mem' start'
  have hip : IsIpv4 mem start ↔ IsIpv4 mem' start' := by
    rw [IsIpv4, h 12 (by omega), h 13 (by omega)]
    rfl
  refine ⟨?_, fun hports tvSec tvUsec => ?_⟩
  · rw [HasPorts, HasPorts, hip]
    refine and_congr_right fun hip => ?_
    have := le_headerSpan_of_isIpv4 hip
    rw [h 23 (by omega)]
  · have hlong := le_headerSpan_of_isIpv4 hports.1
    have hoffset : portsOffset mem start = portsOffset mem' start' := by
      rw [portsOffset, h 14 (by omega), portsOffset]
    have hend : portsOffset mem' start' + 4 ≤ headerSpan mem' start' := by
      rw [headerSpan, if_pos hports]
      omega
    simp only [framePacket, hoffset, Nat.add_assoc]
    rw [h 23 (by omega), h 26 (by omega), h 27 (by omega), h 28 (by omega), h 29 (by omega),
      h 30 (by omega), h 31 (by omega), h 32 (by omega), h 33 (by omega), h _ (by omega),
      h _ (by omega), h _ (by omega), h _ (by omega)]

end Restore.Pcap
