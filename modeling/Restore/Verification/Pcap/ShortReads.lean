import Restore.Model.PcapFile
import Restore.Verification.FileReader.Contents
import Restore.Verification.Pcap.Decode

/-! # Captures that are read in part

`read` may deliver fewer bytes than the file has, and a capture may be followed by other
bytes. The records that are delivered whole are decoded all the same, before whatever the
loop makes of the rest. -/

namespace Restore.Pcap

open Fetch
open FileReader (Calls fileReader)

variable {packet : PcapPacket} {mem : ℕ → UInt8} {length : ℕ}

/-! ## Records at the front of a memory -/

theorem image_cons (header : List UInt8) (record : Record) (records : List Record) :
    image header (record :: records) = image (header ++ record.encode) records := by
  simp only [image, List.flatMap_cons, List.append_assoc]

theorem length_encode (record : Record) :
    record.encode.length = packetHeaderSize + record.frame.length := by
  simp only [Record.encode, List.length_append, length_littleEndian, packetHeaderSize]
  omega

/-- The loop goes through the records at the front, then on behind them. -/
theorem emittedFrom_image {header : List UInt8} {records : List Record}
    (hmem : Stores mem 0 (image header records)) (hle : (image header records).length ≤ length) :
    emittedFrom packet mem length header.length = records.filterMap Record.packet? ++
      emittedFrom packet mem length (image header records).length := by
  induction records generalizing header with
  | nil => simp [image]
  | cons record records ih =>
      rw [image_cons] at hmem hle ⊢
      have hstores : Stores mem header.length record.encode := by
        have hfront := (stores_append.mp hmem).1
        rw [stores_append, Nat.zero_add] at hfront
        exact hfront.2
      obtain ⟨-, -, hlength, -⟩ := record.words hstores
      have hoffset : header.length ≤ length := by
        rw [image, List.length_append, List.length_append] at hle
        omega
      have hnext : header.length + packetHeaderSize + (packetLengthAt mem header.length).toNat =
          (header ++ record.encode).length := by
        rw [hlength, List.length_append, length_encode, Nat.add_assoc]
      rw [emittedFrom, if_pos hoffset, emitted_record record hstores, hnext, ih hmem hle,
        ← List.append_assoc]
      congr 1
      cases h : record.packet? with
      | none => simp [h]
      | some emission => simp [h]

/-- What `ReadPcapFile` leaves in the groups for a memory of any bytes. -/
theorem value_readPcapFile {groupNum : UInt8} (hgroups : groupNum ≠ 0) :
    (readPcapFile packet (some ⟨mem, length⟩) (pcapReader groupNum)).value mem =
      some (⟨groupNum, referenceDatas groupNum (emittedFrom packet mem length fileHeaderSize)⟩,
        0) := by
  have hreader : pcapReader groupNum = ⟨groupNum, referenceDatas groupNum []⟩ := by
    simp [pcapReader, referenceDatas, List.map_const']
  simp only [readPcapFile, value_bind, value_pure, hreader, value_readRecords hgroups,
    List.nil_append, Option.map_some]

/-! ## Delivered bytes -/

/-- How many bytes of the buffer `read` has filled. -/
def delivered (calls : Calls) : ℕ :=
  match calls.stat with
  | none => 0
  | some stSize => min (calls.read.getD 0) (calls.size stSize)

/-- The delivered bytes of the file stand at the front of the buffer. -/
theorem fileReader_delivers {calls : Calls} {storage : ℕ → UInt8}
    (hstorage : calls.storage = some storage) (hcalls : ¬calls.Fails) {file bytes : List UInt8}
    (hfile : bytes <+: file) (hlen : bytes.length ≤ delivered calls) :
    ∃ buff data, fileReader calls file = some buff ∧ buff.data = some data ∧
      Stores data 0 bytes ∧ bytes.length ≤ buff.length.toNat := by
  obtain ⟨stSize, size, hstat, hsize, hreader⟩ := FileReader.fileReader_of_not_fails file hcalls
  rw [delivered, hstat] at hlen
  dsimp only at hlen
  rw [← hsize] at hlen
  refine ⟨_, _, hreader, by rw [hstorage]; rfl, fun i hi => ?_, by dsimp only; omega⟩
  obtain ⟨rest, rfl⟩ := hfile
  rw [Nat.zero_add]
  dsimp only
  rw [if_pos (Nat.lt_of_lt_of_le hi hlen), memoryOf, List.getD_append _ _ _ _ hi,
    List.getD_eq_getElem _ _ hi, List.getD_eq_getElem _ _ hi]

/-- Whatever the calls of its `FileReader` return, `ReadPcapFile` decodes the records that
have been delivered whole; what it makes of the bytes behind them comes later in the groups,
and so in every connection. -/
theorem readPcapFileAt_decodes (groupNum : UInt8) (hgroups : 1 ≤ groupNum.toNat)
    (header : List UInt8) (hheader : header.length = fileHeaderSize) (records : List Record)
    (packet : PcapPacket) (calls : Calls) (storage : ℕ → UInt8)
    (hstorage : calls.storage = some storage) (hcalls : ¬calls.Fails) (file : List UInt8)
    (hfile : image header records <+: file) (k : ℕ)
    (hk : (image header (records.take k)).length ≤ delivered calls) :
    let packets := (records.take k).filterMap Record.packet?
    ∃ later r, readPcapFileAt packet calls file (pcapReader groupNum) = some (r, 0) ∧
      r.datas = referenceDatas groupNum (packets ++ later) ∧
      ∀ p, ∃ group, r.datas[groupOf groupNum p]? = some group ∧
        group.filter (SameTuple p) =
          packets.filter (SameTuple p) ++ later.filter (SameTuple p) := by
  intro packets
  have hne : groupNum ≠ 0 := by
    rintro rfl
    simp at hgroups
  have hprefix : image header (records.take k) <+: file := by
    refine List.IsPrefix.trans ⟨(records.drop k).flatMap Record.encode, ?_⟩ hfile
    rw [image, image, List.append_assoc, ← List.flatMap_append, List.take_append_drop]
  obtain ⟨buff, data, hreader, hdata, hstores, hlen⟩ :=
    fileReader_delivers hstorage hcalls hprefix hk
  let later := emittedFrom packet data buff.length.toNat (image header (records.take k)).length
  refine ⟨later, ⟨groupNum, referenceDatas groupNum (packets ++ later)⟩, ?_, rfl, fun p =>
    ⟨_, getElem?_referenceDatas _ _ (Nat.mod_lt _ hgroups), ?_⟩⟩
  · rw [readPcapFileAt, hreader]
    dsimp only [ofFileReader]
    rw [hdata, Option.map_some]
    dsimp only [bind, Option.bind]
    rw [value_readPcapFile hne, ← hheader, emittedFrom_image hstores hlen]
  · rw [filter_sameTuple_group, List.filter_append]

/-- Two records, of which `read` delivers the first and a part of the second. -/
theorem readPcapFileAt_decodes_of_cut :
    let file := image (List.replicate 24 0) [tcpRecord, tcpRecord]
    let calls : Calls := ⟨some 132, some 132, true, 3, some fun _ => 0, some 100⟩
    ∃ later r, readPcapFileAt ⟨0, 0, 0, 0, 0, 0, 0, 0⟩ calls file (pcapReader 2) = some (r, 0) ∧
      r.datas = referenceDatas 2
        (⟨100, 7, 0x0a000001, 0x0a000002, 80, 1024, 6, 0x0800⟩ :: later) := by
  intro file calls
  obtain ⟨later, r, hvalue, hdatas, -⟩ := readPcapFileAt_decodes 2 (by decide)
    (List.replicate 24 0) rfl [tcpRecord, tcpRecord] ⟨0, 0, 0, 0, 0, 0, 0, 0⟩ calls (fun _ => 0)
    rfl (by simp [Calls.Fails, calls]) file (List.prefix_refl _) 1 (by decide)
  exact ⟨later, r, hvalue, hdatas⟩

end Restore.Pcap
