import Restore.Verification.Pcap.Equations

/-! # Where `ReadPcapFile` reads

The reads stay inside the file exactly for the files whose chain of records leaves the
file by a record length that overshoots its end. -/

namespace Restore.Pcap

open Fetch

/-! ## One record -/

/-- The `packet_length` of the record header at `offset`. -/
def packetLengthAt (mem : ℕ → UInt8) (offset : ℕ) : UInt32 :=
  ((loadPacketHeader offset).value mem).packetLength

theorem value_readRecord (mem : ℕ → UInt8) (packet : PcapPacket) (offset : ℕ)
    (r : PcapReader) :
    (readRecord packet offset r).value mem = (packetLengthAt mem offset,
      if HasPorts mem (offset + packetHeaderSize) then
        r.push (framePacket mem (offset + packetHeaderSize)
          ((load32 offset).value mem).toNat ((load32 (offset + 4)).value mem).toNat)
      else some r) := by
  let fresh : PcapPacket := { packet with
    tvSec := ((load32 offset).value mem).toNat
    tvUsec := ((load32 (offset + 4)).value mem).toNat }
  have hvalue : (readRecord packet offset r).value mem = (packetLengthAt mem offset,
      if ((parsePacket fresh (offset + packetHeaderSize)
        (packetLengthAt mem offset).toNat).value mem).2 ≠ 0 then
        r.push ((parsePacket fresh (offset + packetHeaderSize)
          (packetLengthAt mem offset).toNat).value mem).1
      else some r) := by
    simp only [readRecord, value_bind]
    rfl
  obtain ⟨hret, hpacket⟩ := value_parsePacket mem fresh (offset + packetHeaderSize)
    (packetLengthAt mem offset).toNat
  rw [hvalue, hret]
  by_cases hports : HasPorts mem (offset + packetHeaderSize)
  · rw [hpacket hports, if_pos hports, if_pos (by decide), if_pos hports]
  · rw [if_neg hports, if_neg (by decide), if_neg hports]

theorem within_readRecord (mem : ℕ → UInt8) (length : ℕ) (packet : PcapPacket) (offset : ℕ)
    (r : PcapReader) :
    (readRecord packet offset r).Within mem length ↔
      offset + packetHeaderSize + headerSpan mem (offset + packetHeaderSize) ≤ length := by
  simp only [readRecord, within_bind, within_loadPacketHeader, within_parsePacket, within_pure,
    and_true]
  omega

/-! ## The chain of records -/

/-- From `offset` on, every record that the chain visits lies in the file with its header
and with the fields that its type selects. The chain ends past the end of the file, or at
a packet that cannot be dispatched among 0 groups. -/
inductive Fits (mem : ℕ → UInt8) (length : ℕ) (groupNum : UInt8) : ℕ → Prop
  | past {offset : ℕ} (h : length < offset) : Fits mem length groupNum offset
  | trapped {offset : ℕ} (h : offset ≤ length)
      (hrecord : offset + packetHeaderSize + headerSpan mem (offset + packetHeaderSize) ≤ length)
      (hgroups : groupNum = 0) (hports : HasPorts mem (offset + packetHeaderSize)) :
      Fits mem length groupNum offset
  | record {offset : ℕ} (h : offset ≤ length)
      (hrecord : offset + packetHeaderSize + headerSpan mem (offset + packetHeaderSize) ≤ length)
      (hrest : Fits mem length groupNum
        (offset + packetHeaderSize + (packetLengthAt mem offset).toNat)) :
      Fits mem length groupNum offset

theorem fits_iff {mem : ℕ → UInt8} {length offset : ℕ} {groupNum : UInt8}
    (h : offset ≤ length) :
    Fits mem length groupNum offset ↔
      offset + packetHeaderSize + headerSpan mem (offset + packetHeaderSize) ≤ length ∧
        ((groupNum = 0 ∧ HasPorts mem (offset + packetHeaderSize)) ∨
          Fits mem length groupNum
            (offset + packetHeaderSize + (packetLengthAt mem offset).toNat)) := by
  constructor
  · intro hfits
    cases hfits with
    | past hlt => omega
    | trapped _ hrecord hgroups hports => exact ⟨hrecord, Or.inl ⟨hgroups, hports⟩⟩
    | record _ hrecord hrest => exact ⟨hrecord, Or.inr hrest⟩
  · rintro ⟨hrecord, ⟨hgroups, hports⟩ | hrest⟩
    · exact .trapped h hrecord hgroups hports
    · exact .record h hrecord hrest

/-- A chain that reaches the exact end of the file goes on to read a record header there. -/
theorem not_fits_length (mem : ℕ → UInt8) (length : ℕ) (groupNum : UInt8) :
    ¬Fits mem length groupNum length := by
  rw [fits_iff (Nat.le_refl length)]
  simp only [packetHeaderSize]
  omega

theorem PcapReader.push_of_zero {r : PcapReader} (h : r.groupNum = 0) (packet : PcapPacket) :
    r.push packet = none := by
  simp [PcapReader.push, h]

theorem PcapReader.push_of_ne_zero {r : PcapReader} (h : r.groupNum ≠ 0) (packet : PcapPacket) :
    r.push packet = some ⟨r.groupNum,
      r.datas.modify (hash4Tuple packet % r.groupNum.toUInt64).toNat (· ++ [packet])⟩ := by
  simp [PcapReader.push, h]

theorem within_readRecords (mem : ℕ → UInt8) (length : ℕ) (packet : PcapPacket) (offset : ℕ)
    (r : PcapReader) :
    (readRecords packet length offset r).Within mem length ↔
      Fits mem length r.groupNum offset := by
  fun_induction readRecords packet length offset r with
  | case1 offset r h ih =>
      simp only [within_bind, within_readRecord, value_readRecord]
      rw [fits_iff h]
      refine and_congr_right fun _ => ?_
      by_cases hports : HasPorts mem (offset + packetHeaderSize)
      · rw [if_pos hports]
        by_cases hgroups : r.groupNum = 0
        · rw [PcapReader.push_of_zero hgroups]
          exact iff_of_true (within_pure _) (Or.inl ⟨hgroups, hports⟩)
        · rw [PcapReader.push_of_ne_zero hgroups]
          simp only [ih, hgroups, false_and, false_or]
      · rw [if_neg hports]
        simp only [ih, hports, and_false, false_or]
  | case2 offset r h =>
      simp only [within_pure, true_iff]
      exact .past (Nat.lt_of_not_le h)

/-! ## The whole file -/

/-- All reads of `ReadPcapFile` and its `ParsePacket` calls are inside the file if and only
if the file holds a file header and every visited record lies in it. -/
theorem reads_in_bounds_iff (packet : PcapPacket) (buff : Mmap) (r : PcapReader) :
    (∀ i ∈ (readPcapFile packet (some buff) r).reads buff.data, i < buff.length) ↔
      fileHeaderSize ≤ buff.length ∧
        Fits buff.data buff.length r.groupNum fileHeaderSize := by
  have hwithin : (readPcapFile packet (some buff) r).Within buff.data buff.length ↔
      (loadBytes 0 fileHeaderSize).Within buff.data buff.length ∧
        (readRecords packet buff.length fileHeaderSize r).Within buff.data buff.length := by
    simp only [readPcapFile, within_bind, within_pure, and_true]
  have hheader : (loadBytes 0 fileHeaderSize).Within buff.data buff.length ↔
      fileHeaderSize ≤ buff.length := by
    rw [fileHeaderSize, within_loadBytes]
    omega
  rw [← hheader, ← within_readRecords buff.data buff.length packet]
  exact hwithin

/-- A file of the 24 bytes of a file header and no record is read at index 24. -/
theorem reads_past_empty_capture :
    let header : List UInt8 := [0xd4, 0xc3, 0xb2, 0xa1, 2, 0, 4, 0, 0, 0, 0, 0, 0, 0, 0, 0,
      0xff, 0xff, 0, 0, 1, 0, 0, 0]
    let buff : Mmap := ⟨fun i => header.getD i 0, header.length⟩
    ¬∀ i ∈ (readPcapFile ⟨0, 0, 0, 0, 0, 0, 0, 0⟩ (some buff) (pcapReader 1)).reads buff.data,
      i < buff.length := by
  intro header buff h
  have hread : 24 ∈ (readPcapFile ⟨0, 0, 0, 0, 0, 0, 0, 0⟩ (some buff) (pcapReader 1)).reads
      buff.data := by
    rw [readPcapFile, readRecords, if_pos (by decide)]
    simp [readRecord, loadPacketHeader, load32, fileHeaderSize]
  exact Nat.lt_irrefl 24 (h 24 hread)

end Restore.Pcap
