import Restore.Verification.Pcap.Captures

/-! # The packets that a file of any bytes yields

What each visited record emits, and the groups after the record loop, for files that need
not be well-formed. -/

namespace Restore.Pcap

open Fetch

/-- The packet that `ParsePacket` reports for the record at `offset`, if it returns 1. -/
def emitted (packet : PcapPacket) (mem : ℕ → UInt8) (offset : ℕ) : Option PcapPacket :=
  let pph := (loadPacketHeader offset).value mem
  let (packet, ret) := (parsePacket { packet with
      tvSec := pph.timestamp.toNat
      tvUsec := pph.microseconds.toNat }
    (offset + packetHeaderSize) pph.packetLength.toNat).value mem
  if ret ≠ 0 then some packet else none

/-- The packets that the records visited from `offset` on emit, in order. -/
def emittedFrom (packet : PcapPacket) (mem : ℕ → UInt8) (length offset : ℕ) : List PcapPacket :=
  if offset ≤ length then
    (emitted packet mem offset).toList ++
      emittedFrom packet mem length (offset + packetHeaderSize + (packetLengthAt mem offset).toNat)
  else []
termination_by length + 1 - offset
decreasing_by
  simp only [packetHeaderSize]
  omega

theorem emitted_eq (packet : PcapPacket) (mem : ℕ → UInt8) (offset : ℕ) :
    emitted packet mem offset = if HasPorts mem (offset + packetHeaderSize) then
      some (framePacket mem (offset + packetHeaderSize) ((load32 offset).value mem).toNat
        ((load32 (offset + 4)).value mem).toNat)
    else none := by
  obtain ⟨hret, hpacket⟩ := value_parsePacket mem { packet with
      tvSec := ((load32 offset).value mem).toNat
      tvUsec := ((load32 (offset + 4)).value mem).toNat }
    (offset + packetHeaderSize) (packetLengthAt mem offset).toNat
  have hvalue : emitted packet mem offset =
      if (if HasPorts mem (offset + packetHeaderSize) then 1 else 0) ≠ 0 then
        some ((parsePacket { packet with
            tvSec := ((load32 offset).value mem).toNat
            tvUsec := ((load32 (offset + 4)).value mem).toNat }
          (offset + packetHeaderSize) (packetLengthAt mem offset).toNat).value mem).1
      else none := by
    rw [← hret]
    rfl
  rw [hvalue]
  by_cases hports : HasPorts mem (offset + packetHeaderSize)
  · rw [hpacket hports, if_pos hports, if_pos (by decide), if_pos hports]
  · rw [if_neg hports, if_neg (by decide), if_neg hports]

/-- An iteration of the record loop pushes what its record emits. -/
theorem value_readRecord_emitted (mem : ℕ → UInt8) (packet : PcapPacket) (offset : ℕ)
    (r : PcapReader) :
    (readRecord packet offset r).value mem = (packetLengthAt mem offset,
      match emitted packet mem offset with
      | some packet => r.push packet
      | none => some r) := by
  rw [value_readRecord, emitted_eq]
  split <;> rfl

/-! ## Groups -/

def groupOf (groupNum : UInt8) (packet : PcapPacket) : ℕ :=
  (hash4Tuple packet).toNat % groupNum.toNat

/-- Every group lists its packets in file order. -/
def referenceDatas (groupNum : UInt8) (packets : List PcapPacket) : List (List PcapPacket) :=
  (List.range groupNum.toNat).map fun i =>
    packets.filter fun packet => groupOf groupNum packet = i

theorem getElem?_referenceDatas (groupNum : UInt8) (packets : List PcapPacket) {i : ℕ}
    (hi : i < groupNum.toNat) : (referenceDatas groupNum packets)[i]? =
      some (packets.filter fun packet => groupOf groupNum packet = i) := by
  rw [referenceDatas, List.getElem?_map, List.getElem?_range hi, Option.map_some]

/-- A dispatched packet goes to the end of its group. -/
theorem referenceDatas_append (groupNum : UInt8) (packets : List PcapPacket)
    (packet : PcapPacket) : referenceDatas groupNum (packets ++ [packet]) =
      (referenceDatas groupNum packets).modify (groupOf groupNum packet) (· ++ [packet]) := by
  apply List.ext_getElem?
  intro i
  rw [List.getElem?_modify]
  by_cases hi : i < groupNum.toNat
  · rw [getElem?_referenceDatas _ _ hi, getElem?_referenceDatas _ _ hi, List.filter_append]
    by_cases hgroup : groupOf groupNum packet = i
    · simp [hgroup]
    · simp [hgroup]
  · have hlen : ∀ l, (referenceDatas groupNum l)[i]? = none := fun l =>
      List.getElem?_eq_none (by simpa [referenceDatas] using hi)
    rw [hlen, hlen]
    rfl

theorem push_referenceDatas {groupNum : UInt8} (hgroups : groupNum ≠ 0)
    (packets : List PcapPacket) (packet : PcapPacket) :
    PcapReader.push ⟨groupNum, referenceDatas groupNum packets⟩ packet =
      some ⟨groupNum, referenceDatas groupNum (packets ++ [packet])⟩ := by
  rw [PcapReader.push_of_ne_zero hgroups, referenceDatas_append, groupOf, UInt64.toNat_mod,
    UInt8.toNat_toUInt64]

theorem push_emitted {groupNum : UInt8} (hgroups : groupNum ≠ 0) (packets : List PcapPacket)
    (emission : Option PcapPacket) :
    (match emission with
      | some packet => PcapReader.push ⟨groupNum, referenceDatas groupNum packets⟩ packet
      | none => some ⟨groupNum, referenceDatas groupNum packets⟩) =
      some ⟨groupNum, referenceDatas groupNum (packets ++ emission.toList)⟩ := by
  cases emission with
  | none => rw [Option.toList_none, List.append_nil]
  | some packet => exact push_referenceDatas hgroups packets packet

/-- The record loop adds the emitted packets to the groups. -/
theorem value_readRecords {groupNum : UInt8} (hgroups : groupNum ≠ 0) (mem : ℕ → UInt8)
    (packet : PcapPacket) (length offset : ℕ) (packets : List PcapPacket) :
    (readRecords packet length offset ⟨groupNum, referenceDatas groupNum packets⟩).value mem =
      some ⟨groupNum, referenceDatas groupNum
        (packets ++ emittedFrom packet mem length offset)⟩ := by
  fun_induction emittedFrom packet mem length offset generalizing packets with
  | case1 offset hle ih =>
      rw [readRecords, if_pos hle, value_bind, value_readRecord_emitted, push_emitted hgroups]
      dsimp only
      rw [ih, List.append_assoc]
  | case2 offset hlt =>
      rw [readRecords, if_neg hlt, value_pure, List.append_nil]

/-- With 0 groups, the first packet traps the loop. -/
theorem value_readRecords_of_zero (mem : ℕ → UInt8) (packet : PcapPacket)
    (length offset : ℕ) {r : PcapReader} (hgroups : r.groupNum = 0) :
    (readRecords packet length offset r).value mem =
      if emittedFrom packet mem length offset = [] then some r else none := by
  fun_induction emittedFrom packet mem length offset with
  | case1 offset hle ih =>
      rw [readRecords, if_pos hle, value_bind, value_readRecord_emitted]
      cases hemitted : emitted packet mem offset with
      | none => exact ih
      | some emission =>
          dsimp only
          rw [PcapReader.push_of_zero hgroups]
          rfl
  | case2 offset hlt => rw [readRecords, if_neg hlt, value_pure, if_pos rfl]

end Restore.Pcap
