import Restore.Verification.Pcap.Emission
import Mathlib.Data.List.ReduceOption

/-! # Decoding well-formed captures

A well-formed capture is a file header and a list of complete records. Whenever the record
loop tests its condition inside such a file, the groups hold the reference decode of the
records passed so far. -/

namespace Restore.Pcap

open Fetch

/-! ## The record loop -/

/-- One iteration of the record loop, on the offset and the reader; `none` once the loop
has ended or trapped. -/
def nextTest (packet : PcapPacket) (buff : Mmap) (s : ℕ × PcapReader) :
    Option (ℕ × PcapReader) :=
  if s.1 ≤ buff.length then
    let (packetLength, r) := (readRecord packet s.1 s.2).value buff.data
    r.map fun r => (s.1 + packetHeaderSize + packetLength.toNat, r)
  else none

/-- The offset and the reader when the loop tests its condition after `k` records. -/
def atTest (packet : PcapPacket) (buff : Mmap) (r : PcapReader) : ℕ → Option (ℕ × PcapReader)
  | 0 => some (fileHeaderSize, r)
  | k + 1 => (atTest packet buff r k).bind (nextTest packet buff)

variable {packet : PcapPacket} {buff : Mmap} {groupNum : UInt8}

theorem nextTest_emitted (hgroups : groupNum ≠ 0) (packets : List PcapPacket) {offset : ℕ}
    (hle : offset ≤ buff.length) :
    nextTest packet buff (offset, ⟨groupNum, referenceDatas groupNum packets⟩) =
      some (offset + packetHeaderSize + (packetLengthAt buff.data offset).toNat,
        ⟨groupNum, referenceDatas groupNum
          (packets ++ (emitted packet buff.data offset).toList)⟩) := by
  simp only [nextTest, if_pos hle, value_readRecord_emitted]
  rw [push_emitted hgroups]
  rfl

/-- The loop comes to every record of a capture, with the packets of those before it in the
groups. -/
theorem atTest_rawImage (hgroups : groupNum ≠ 0) {header : List UInt8}
    (hheader : header.length = fileHeaderSize) {records : List RawRecord}
    (hbuff : buff.Holds (rawImage header records)) {k : ℕ} (hk : k ≤ records.length) :
    atTest packet buff (pcapReader groupNum) k =
      some ((rawImage header (records.take k)).length, ⟨groupNum, referenceDatas groupNum
        ((List.range k).map fun i =>
          emitted packet buff.data (rawImage header (records.take i)).length).reduceOption⟩) := by
  induction k with
  | zero => simp [atTest, rawImage, hheader, pcapReader, referenceDatas, List.map_const']
  | succ k ih =>
      obtain ⟨hstores, hle⟩ := stores_record hbuff (List.getElem?_eq_getElem hk)
      obtain ⟨-, -, hlength, -⟩ := RawRecord.words _ hstores
      rw [atTest, ih (Nat.le_of_lt hk), Option.bind_some, nextTest_emitted hgroups _ hle, hlength,
        ← length_rawImage_succ header hk, List.range_succ, List.map_append,
        List.reduceOption_append, List.map_singleton, List.reduceOption_singleton]

/-! ## The reference decode -/

/-- The packet that a record contributes, if any. -/
def Record.packet? (record : Record) : Option PcapPacket :=
  if HasPorts (memoryOf record.frame) 0 then
    some (framePacket (memoryOf record.frame) 0 record.timestamp.toNat
      record.microseconds.toNat)
  else none

/-- A complete record emits its own packet, wherever it stands. -/
theorem emitted_record (record : Record) {mem : ℕ → UInt8} {offset : ℕ}
    (hmem : Stores mem offset record.encode) : emitted packet mem offset = record.packet? := by
  obtain ⟨htimestamp, hmicroseconds, -, hframe⟩ := record.words hmem
  obtain ⟨hports, hpacket⟩ := frame_congr mem (memoryOf record.frame)
    (offset + packetHeaderSize) 0 fun i hi => by
      rw [Nat.zero_add]
      exact hframe i (Nat.lt_of_lt_of_le hi record.complete)
  rw [emitted_eq, Record.packet?, htimestamp, hmicroseconds]
  by_cases hrec : HasPorts (memoryOf record.frame) 0
  · rw [if_pos (hports.mpr hrec), if_pos hrec, hpacket hrec]
  · rw [if_neg (mt hports.mp hrec), if_neg hrec]

theorem image_eq_rawImage (header : List UInt8) (records : List Record) :
    image header records = rawImage header (records.map Record.raw) := by
  rw [image, rawImage, List.flatMap_map]
  rfl

/-- After `k` records the loop stands behind them, and the groups hold their packets. -/
theorem atTest_image (hgroups : groupNum ≠ 0) {header : List UInt8}
    (hheader : header.length = fileHeaderSize) {records : List Record}
    (hbuff : buff.Holds (image header records)) {k : ℕ} (hk : k ≤ records.length) :
    atTest packet buff (pcapReader groupNum) k =
      some ((image header (records.take k)).length,
        ⟨groupNum, referenceDatas groupNum ((records.take k).filterMap Record.packet?)⟩) := by
  rw [image_eq_rawImage] at hbuff ⊢
  rw [atTest_rawImage hgroups hheader hbuff ((List.length_map _).symm ▸ hk), List.map_take]
  have hpackets : ((List.range k).map fun i => emitted packet buff.data
      (rawImage header ((records.map Record.raw).take i)).length) =
        (records.take k).map Record.packet? := by
    refine List.ext_getElem (by simp [hk]) fun i hi hi' => ?_
    rw [List.length_map, List.length_take] at hi'
    rw [List.getElem_map, List.getElem_map, List.getElem_range, List.getElem_take]
    have hrecord : (records.map Record.raw)[i]? = some records[i].raw := by
      rw [List.getElem?_map, List.getElem?_eq_getElem (by omega), Option.map_some]
    exact emitted_record records[i] (stores_record hbuff hrecord).1
  rw [hpackets, List.reduceOption, List.filterMap_map]
  rfl

/-! ## Every offset is tested once -/

theorem nextTest_eq {s s' : ℕ × PcapReader} (h : nextTest packet buff s = some s') :
    s.1 ≤ buff.length ∧
      s'.1 = s.1 + packetHeaderSize + (packetLengthAt buff.data s.1).toNat := by
  unfold nextTest at h
  split at h
  · rename_i hle
    rw [value_readRecord] at h
    obtain ⟨r, -, rfl⟩ := Option.map_eq_some_iff.mp h
    exact ⟨hle, rfl⟩
  · simp at h

/-- The offset grows with every iteration. -/
theorem nextTest_lt {s s' : ℕ × PcapReader} (h : nextTest packet buff s = some s') :
    s.1 < s'.1 := by
  rw [(nextTest_eq h).2, packetHeaderSize]
  omega

theorem atTest_lt {r : PcapReader} {k j : ℕ} {s s' : ℕ × PcapReader}
    (hs : atTest packet buff r k = some s) (hs' : atTest packet buff r (k + j + 1) = some s') :
    s.1 < s'.1 := by
  induction j generalizing s' with
  | zero =>
      rw [Nat.add_zero, atTest, hs, Option.bind_some] at hs'
      exact nextTest_lt hs'
  | succ j ih =>
      rw [atTest, Option.bind_eq_some_iff] at hs'
      obtain ⟨s₁, hs₁, hnext⟩ := hs'
      exact Nat.lt_trans (ih hs₁) (nextTest_lt hnext)

/-- The loop tests its condition at most once at an offset. -/
theorem atTest_inj {r : PcapReader} {k k' offset : ℕ} {r₁ r₂ : PcapReader}
    (h₁ : atTest packet buff r k = some (offset, r₁))
    (h₂ : atTest packet buff r k' = some (offset, r₂)) : r₁ = r₂ := by
  rcases Nat.lt_trichotomy k k' with hlt | rfl | hgt
  · obtain ⟨j, rfl⟩ := Nat.exists_eq_add_of_lt hlt
    exact absurd (atTest_lt h₁ h₂) (Nat.lt_irrefl _)
  · rw [h₁] at h₂
    exact (Prod.mk.inj (Option.some.inj h₂)).2
  · obtain ⟨j, rfl⟩ := Nat.exists_eq_add_of_lt hgt
    exact absurd (atTest_lt h₂ h₁) (Nat.lt_irrefl _)

/-- The loop goes on from its next test. -/
theorem value_readRecords_nextTest {s s' : ℕ × PcapReader}
    (h : nextTest packet buff s = some s') :
    (readRecords packet buff.length s.1 s.2).value buff.data =
      (readRecords packet buff.length s'.1 s'.2).value buff.data := by
  unfold nextTest at h
  split at h
  · rename_i hle
    rw [readRecords, if_pos hle, value_bind]
    cases hrecord : (readRecord packet s.1 s.2).value buff.data with
    | mk packetLength r =>
        rw [hrecord] at h
        obtain ⟨r', rfl, rfl⟩ := Option.map_eq_some_iff.mp h
        rfl
  · simp at h

theorem value_readRecords_atTest {r : PcapReader} {k : ℕ} {s : ℕ × PcapReader}
    (h : atTest packet buff r k = some s) :
    (readRecords packet buff.length fileHeaderSize r).value buff.data =
      (readRecords packet buff.length s.1 s.2).value buff.data := by
  induction k generalizing s with
  | zero =>
      obtain rfl := Option.some.inj h
      rfl
  | succ k ih =>
      rw [atTest, Option.bind_eq_some_iff] at h
      obtain ⟨s₁, hs₁, hnext⟩ := h
      rw [ih hs₁, value_readRecords_nextTest hnext]

/-- A chain of records that lies in the file does so from every test on. -/
theorem fits_atTest {r : PcapReader} {k : ℕ} {s : ℕ × PcapReader}
    (h : atTest packet buff r k = some s) (hgroups : groupNum ≠ 0)
    (hfits : Fits buff.data buff.length groupNum fileHeaderSize) :
    Fits buff.data buff.length groupNum s.1 := by
  induction k generalizing s with
  | zero =>
      obtain rfl := Option.some.inj h
      exact hfits
  | succ k ih =>
      rw [atTest, Option.bind_eq_some_iff] at h
      obtain ⟨s₁, hs₁, hnext⟩ := h
      obtain ⟨hle, heq⟩ := nextTest_eq hnext
      rw [heq]
      exact ((fits_iff hle).mp (ih hs₁)).2.resolve_left fun h => hgroups h.1

/-- Every well-formed capture is read past its end. -/
theorem reads_past_image (hgroups : groupNum ≠ 0) {header : List UInt8}
    (hheader : header.length = fileHeaderSize) {records : List Record}
    (hbuff : buff.Holds (image header records)) :
    ¬(readPcapFile packet (some buff) (pcapReader groupNum)).Within buff.data buff.length := by
  simp only [readPcapFile, within_bind, within_readRecords]
  rintro ⟨-, hfits, -⟩
  have hend : atTest packet buff (pcapReader groupNum) records.length = _ :=
    atTest_image hgroups hheader hbuff (Nat.le_refl _)
  rw [List.take_length, ← hbuff.length_eq] at hend
  exact not_fits_length _ _ _ (fits_atTest hend hgroups hfits)

/-! ## Packets of one connection -/

def SameTuple (p q : PcapPacket) : Prop :=
  q.scrIpv4 = p.scrIpv4 ∧ q.dstIpv4 = p.dstIpv4 ∧ q.scrPort = p.scrPort ∧ q.dstPort = p.dstPort

instance (p : PcapPacket) : DecidablePred (SameTuple p) := fun _ =>
  inferInstanceAs (Decidable (_ ∧ _))

theorem SameTuple.groupOf_eq {p q : PcapPacket} (h : SameTuple p q) (groupNum : UInt8) :
    groupOf groupNum q = groupOf groupNum p := by
  obtain ⟨hscr, hdst, hscrPort, hdstPort⟩ := h
  rw [groupOf, hash4Tuple, hscr, hdst, hscrPort, hdstPort]
  rfl

/-- The packets of a connection share a group and keep their order there. -/
theorem filter_sameTuple_group (groupNum : UInt8) (packets : List PcapPacket) (p : PcapPacket) :
    (packets.filter fun q => groupOf groupNum q = groupOf groupNum p).filter (SameTuple p) =
      packets.filter (SameTuple p) := by
  rw [List.filter_filter]
  refine List.filter_congr fun q _ => ?_
  by_cases hsame : SameTuple p q
  · simp [hsame, hsame.groupOf_eq]
  · simp [hsame]

/-- When the loop tests its condition at the end of a well-formed capture, the groups are
the reference decode, and connections are kept together in file order. -/
theorem readPcapFile_decodes (groupNum : UInt8) (hgroups : 1 ≤ groupNum.toNat)
    (header : List UInt8) (hheader : header.length = fileHeaderSize) (records : List Record)
    (packet : PcapPacket) (buff : Mmap) (hbuff : buff.Holds (image header records)) :
    let packets := records.filterMap Record.packet?
    let datas := referenceDatas groupNum packets
    (∃ k, atTest packet buff (pcapReader groupNum) k = some (buff.length, ⟨groupNum, datas⟩)) ∧
      (∀ k r, atTest packet buff (pcapReader groupNum) k = some (buff.length, r) →
        r.datas = datas ∧
          (readPcapFile packet (some buff) (pcapReader groupNum)).value buff.data =
            ((readRecords packet buff.length buff.length r).value buff.data).map (·, 0)) ∧
      ∀ p, ∃ group, datas[groupOf groupNum p]? = some group ∧
        group.filter (SameTuple p) = packets.filter (SameTuple p) := by
  intro packets datas
  have hne : groupNum ≠ 0 := by
    rintro rfl
    simp at hgroups
  have hend : atTest packet buff (pcapReader groupNum) records.length =
      some (buff.length, ⟨groupNum, datas⟩) := by
    rw [atTest_image hne hheader hbuff (Nat.le_refl _), List.take_length, hbuff.length_eq]
  refine ⟨⟨_, hend⟩, fun k r hk => ⟨?_, ?_⟩, fun p => ⟨_, ?_, filter_sameTuple_group groupNum _ p⟩⟩
  · rw [atTest_inj hk hend]
  · simp only [readPcapFile, value_bind, value_pure, value_readRecords_atTest hk]
  · exact getElem?_referenceDatas _ _ (Nat.mod_lt _ hgroups)

theorem holds_memoryOf (bytes : List UInt8) : Mmap.Holds ⟨memoryOf bytes, bytes.length⟩ bytes :=
  ⟨rfl, fun i _ => by rw [Nat.zero_add]⟩

/-- A TCP segment from 10.0.0.1:80 to 10.0.0.2:1024. -/
def tcpRecord : Record where
  timestamp := 100
  microseconds := 7
  lengthWire := 38
  frame := List.replicate 12 0 ++ [0x08, 0x00, 0x45] ++ List.replicate 8 0 ++ [6, 0, 0] ++
    [10, 0, 0, 1] ++ [10, 0, 0, 2] ++ [0, 80] ++ [4, 0]
  frame_lt := by decide
  complete := by decide

theorem readPcapFile_decodes_of_tcp :
    let bytes := image (List.replicate 24 0) [tcpRecord]
    ∃ k, atTest ⟨0, 0, 0, 0, 0, 0, 0, 0⟩ ⟨memoryOf bytes, bytes.length⟩ (pcapReader 2) k =
      some (bytes.length, ⟨2, [[], [⟨100, 7, 0x0a000001, 0x0a000002, 80, 1024, 6, 0x0800⟩]]⟩) := by
  intro bytes
  obtain ⟨⟨k, hk⟩, -, -⟩ := readPcapFile_decodes 2 (by decide) (List.replicate 24 0) rfl
    [tcpRecord] ⟨0, 0, 0, 0, 0, 0, 0, 0⟩ ⟨memoryOf bytes, bytes.length⟩ (holds_memoryOf bytes)
  refine ⟨k, ?_⟩
  rw [hk]
  decide

end Restore.Pcap
