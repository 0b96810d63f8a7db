import Restore.Verification.Pcap.Decode

/-! # What a record's packet depends on

`ParsePacket` never looks at its `len`. A record whose frame is shorter than the fields that
its type selects takes the missing bytes from behind it: from the next record, or from
behind the file. -/

namespace Restore.Pcap

open Fetch

/-! ## Frames that decide their packet -/

/-- The bytes of the frame settle what is parsed from it: it cannot be IPv4, it cannot be TCP
or UDP, or all fields lie in it. -/
def SelfContained (frame : List UInt8) : Prop :=
  (12 < frame.length ∧ memoryOf frame 12 ≠ 0x08) ∨ (13 < frame.length ∧ memoryOf frame 13 ≠ 0x00) ∨
    (23 < frame.length ∧ memoryOf frame 23 ≠ ipprotoTcp ∧ memoryOf frame 23 ≠ ipprotoUdp) ∨
    max 34 (portsOffset (memoryOf frame) 0 + 4) ≤ frame.length

instance (frame : List UInt8) : Decidable (SelfContained frame) :=
  inferInstanceAs (Decidable (_ ∨ _ ∨ _ ∨ _))

theorem isIpv4_iff (mem : ℕ → UInt8) (start : ℕ) :
    IsIpv4 mem start ↔ mem (start + 12) = 0x08 ∧ mem (start + 13) = 0x00 := by
  have h0 := (mem (start + 12)).toNat_lt
  have h1 := (mem (start + 13)).toNat_lt
  rw [IsIpv4, ← UInt8.toNat_inj, ← UInt8.toNat_inj]
  simp only [bigEndian, List.foldl]
  constructor
  · intro h
    constructor <;> simp <;> omega
  · rintro ⟨h12, h13⟩
    rw [h12, h13]
    rfl

/-- Frames that start with the same self-contained bytes are parsed alike, whatever follows. -/
theorem frame_congr_of_selfContained {frame : List UInt8} (hself : SelfContained frame)
    {mem mem' : ℕ → UInt8} {start start' : ℕ} (hmem : Stores mem start frame)
    (hmem' : Stores mem' start' frame) :
    (HasPorts mem start ↔ HasPorts mem' start') ∧
      (HasPorts mem' start' → ∀ tvSec tvUsec,
        framePacket mem start tvSec tvUsec = framePacket mem' start' tvSec tvUsec) := by
  have hneither (h : ∀ m : ℕ → UInt8, ∀ s, Stores m s frame → ¬HasPorts m s) :
      (HasPorts mem start ↔ HasPorts mem' start') ∧
        (HasPorts mem' start' → ∀ tvSec tvUsec,
          framePacket mem start tvSec tvUsec = framePacket mem' start' tvSec tvUsec) :=
    ⟨iff_of_false (h _ _ hmem) (h _ _ hmem'), fun hports => absurd hports (h _ _ hmem')⟩
  rcases hself with ⟨hlen, h12⟩ | ⟨hlen, h13⟩ | ⟨hlen, htcp, hudp⟩ | hlen
  · refine hneither fun m s hm hports => h12 ?_
    rw [← hm 12 hlen]
    exact ((isIpv4_iff m s).mp hports.1).1
  · refine hneither fun m s hm hports => h13 ?_
    rw [← hm 13 hlen]
    exact ((isIpv4_iff m s).mp hports.1).2
  · refine hneither fun m s hm hports => ?_
    rw [← hm 23 hlen] at htcp hudp
    exact hports.2.elim htcp hudp
  · refine frame_congr mem mem' start start' fun i hi => ?_
    -- the longest header span is that of a frame with ports
    have hoffset : portsOffset mem' start' = portsOffset (memoryOf frame) 0 := by
      rw [portsOffset, hmem' 14 (by omega), portsOffset]
    have hspan : headerSpan mem' start' ≤ frame.length := by
      unfold headerSpan
      split
      · rwa [hoffset]
      · split <;> omega
    rw [hmem i (by omega), hmem' i (by omega)]

/-! ## Frames that do not -/

/-- The frame, then bytes that make a TCP segment of it, and `last` as the last byte of its
header fields. -/
def completion (frame : List UInt8) (last : UInt8) (i : ℕ) : UInt8 :=
  if i < frame.length then memoryOf frame i
  else if i + 1 = max 34 (portsOffset (memoryOf frame) 0 + 4) then last
  else if i = 12 then 0x08
  else if i = 23 then ipprotoTcp
  else 0

theorem completion_of_ne {frame : List UInt8} (last last' : UInt8) {i : ℕ}
    (hi : i + 1 ≠ max 34 (portsOffset (memoryOf frame) 0 + 4)) :
    completion frame last i = completion frame last' i := by
  simp only [completion, if_neg hi]

theorem portsOffset_completion (frame : List UInt8) (last : UInt8) :
    portsOffset (completion frame last) 0 = portsOffset (memoryOf frame) 0 := by
  have hbyte : completion frame last 14 = memoryOf frame 14 := by
    by_cases h : 14 < frame.length
    · rw [completion, if_pos h]
    · rw [completion, if_neg h, if_neg (by omega), if_neg (by decide), if_neg (by decide), memoryOf,
        List.getD_eq_default _ _ (Nat.le_of_not_lt h)]
  rw [portsOffset, Nat.zero_add, hbyte, portsOffset]

theorem hasPorts_completion {frame : List UInt8} (hself : ¬SelfContained frame) (last : UInt8) :
    HasPorts (completion frame last) 0 := by
  simp only [SelfContained, not_or, not_and, Classical.not_not] at hself
  obtain ⟨h12, h13, h23, -⟩ := hself
  rw [HasPorts, isIpv4_iff]
  simp only [Nat.zero_add]
  refine ⟨⟨?_, ?_⟩, ?_⟩
  · by_cases h : 12 < frame.length
    · rw [completion, if_pos h, h12 h]
    · rw [completion, if_neg h, if_neg (by omega), if_pos rfl]
  · by_cases h : 13 < frame.length
    · rw [completion, if_pos h, h13 h]
    · rw [completion, if_neg h, if_neg (by omega), if_neg (by decide), if_neg (by decide)]
  · by_cases h : 23 < frame.length
    · rw [completion, if_pos h]
      exact Classical.or_iff_not_imp_left.mpr (h23 h)
    · rw [completion, if_neg h, if_neg (by omega), if_neg (by decide), if_pos rfl]
      exact Or.inl rfl

/-- The completed frame's packet shows the last byte. -/
theorem framePacket_completion_inj {frame : List UInt8} (hself : ¬SelfContained frame)
    {last last' : UInt8} {tvSec tvUsec : ℕ}
    (h : framePacket (completion frame last) 0 tvSec tvUsec =
      framePacket (completion frame last') 0 tvSec tvUsec) : last = last' := by
  simp only [SelfContained, not_or, not_and, Classical.not_not, Nat.not_le] at hself
  have hlen := hself.2.2.2
  have hlast (last : UInt8) (i : ℕ)
      (hi : i + 1 = max 34 (portsOffset (memoryOf frame) 0 + 4)) :
      completion frame last i = last := by
    rw [completion, if_neg (by omega), if_pos hi]
  simp only [framePacket, portsOffset_completion, Nat.zero_add, PcapPacket.mk.injEq] at h
  obtain ⟨-, -, -, hdst, -, hport, -⟩ := h
  rw [← UInt8.toNat_inj]
  have hb (m : ℕ → UInt8) (i : ℕ) := (m i).toNat_lt
  by_cases hshort : portsOffset (memoryOf frame) 0 + 4 ≤ 34
  · rw [hlast last 33 (by omega), hlast last' 33 (by omega),
      completion_of_ne last last' (i := 30) (by omega),
      completion_of_ne last last' (i := 31) (by omega),
      completion_of_ne last last' (i := 32) (by omega), ← UInt32.toNat_inj, UInt32.toNat_ofNat',
      UInt32.toNat_ofNat'] at hdst
    have h0 := hb (completion frame last') 30
    have h1 := hb (completion frame last') 31
    have h2 := hb (completion frame last') 32
    have h3 := last.toNat_lt
    have h3' := last'.toNat_lt
    simp only [bigEndian, List.foldl] at hdst
    omega
  · rw [hlast last (portsOffset (memoryOf frame) 0 + 3) (by omega),
      hlast last' (portsOffset (memoryOf frame) 0 + 3) (by omega),
      completion_of_ne last last' (by omega), ← UInt16.toNat_inj, UInt16.toNat_ofNat',
      UInt16.toNat_ofNat'] at hport
    have h2 := hb (completion frame last') (portsOffset (memoryOf frame) 0 + 2)
    have h3 := last.toNat_lt
    have h3' := last'.toNat_lt
    simp only [bigEndian, List.foldl] at hport
    omega

/-! ## Two captures -/

/-- The packet that the `i`-th iteration of the record loop pushes, if any. -/
def emission (packet : PcapPacket) (buff : Mmap) (r : PcapReader) (i : ℕ) : Option PcapPacket :=
  (atTest packet buff r i).bind fun s =>
    (nextTest packet buff s).bind fun _ => emitted packet buff.data s.1

/-- Captures with records of the same lengths that differ in record `j` only. -/
structure DifferAt (j : ℕ) (records records' : List RawRecord) : Prop where
  lt : j < records.length
  lengths : records'.map (·.frame.length) = records.map (·.frame.length)
  others : ∀ k, k ≠ j → records'[k]? = records[k]?

variable {packet : PcapPacket} {buff buff' : Mmap} {groupNum : UInt8}

theorem emission_eq (hgroups : groupNum ≠ 0) {header : List UInt8}
    (hheader : header.length = fileHeaderSize) {records : List RawRecord}
    (hbuff : buff.Holds (rawImage header records)) {i : ℕ} {record : RawRecord}
    (hi : records[i]? = some record) :
    emission packet buff (pcapReader groupNum) i =
      emitted packet buff.data (rawImage header (records.take i)).length := by
  have hlt := (List.getElem?_eq_some_iff.mp hi).1
  rw [emission, atTest_rawImage hgroups hheader hbuff (Nat.le_of_lt hlt), Option.bind_some,
    nextTest_emitted hgroups _ (stores_record hbuff hi).2, Option.bind_some]

/-- An iteration that goes on with 0 groups has emitted nothing. -/
theorem nextTest_of_zero {s s' : ℕ × PcapReader} (hgroups : s.2.groupNum = 0)
    (h : nextTest packet buff s = some s') :
    emitted packet buff.data s.1 = none ∧ s'.2.groupNum = 0 := by
  unfold nextTest at h
  split at h
  next =>
    rw [value_readRecord_emitted] at h
    obtain ⟨r, hr, rfl⟩ := Option.map_eq_some_iff.mp h
    cases hemitted : emitted packet buff.data s.1 with
    | none =>
        rw [hemitted] at hr
        obtain rfl := Option.some.inj hr
        exact ⟨rfl, hgroups⟩
    | some emission =>
        rw [hemitted] at hr
        dsimp only at hr
        rw [PcapReader.push_of_zero hgroups] at hr
        cases hr
  next => cases h

/-- A reader with 0 groups is trapped before it pushes anything. -/
theorem emission_of_zero (i : ℕ) : emission packet buff (pcapReader 0) i = none := by
  have hgroups : ∀ s, atTest packet buff (pcapReader 0) i = some s → s.2.groupNum = 0 := by
    induction i with
    | zero =>
        intro s h
        obtain rfl := Option.some.inj h
        rfl
    | succ i ih =>
        intro s h
        rw [atTest, Option.bind_eq_some_iff] at h
        obtain ⟨s₁, hs₁, hnext⟩ := h
        exact (nextTest_of_zero (ih s₁ hs₁) hnext).2
  rw [emission, Option.bind_eq_none_iff]
  intro s hs
  rw [Option.bind_eq_none_iff]
  exact fun s' hnext => (nextTest_of_zero (hgroups s hs) hnext).1

/-- A record with self-contained bytes emits the same packet wherever it stands. -/
theorem emitted_congr {record : RawRecord} (hself : SelfContained record.frame)
    {mem mem' : ℕ → UInt8} {offset offset' : ℕ} (hmem : Stores mem offset record.encode)
    (hmem' : Stores mem' offset' record.encode) :
    emitted packet mem offset = emitted packet mem' offset' := by
  obtain ⟨hsec, husec, -, hframe⟩ := record.words hmem
  obtain ⟨hsec', husec', -, hframe'⟩ := record.words hmem'
  obtain ⟨hports, hpacket⟩ := frame_congr_of_selfContained hself hframe hframe'
  rw [emitted_eq, emitted_eq, hsec, husec, hsec', husec']
  by_cases h : HasPorts mem' (offset' + packetHeaderSize)
  · rw [if_pos h, if_pos (hports.mpr h), hpacket h]
  · rw [if_neg h, if_neg (mt hports.mp h)]

/-- The capture `bytes`, and behind it the bytes `rest`. -/
def Mmap.ofList (bytes : List UInt8) (rest : ℕ → UInt8) : Mmap :=
  ⟨fun i => if i < bytes.length then memoryOf bytes i else rest (i - bytes.length), bytes.length⟩

theorem holds_ofList (bytes : List UInt8) (rest : ℕ → UInt8) :
    (Mmap.ofList bytes rest).Holds bytes := by
  refine ⟨rfl, fun i hi => ?_⟩
  show (if 0 + i < bytes.length then memoryOf bytes (0 + i) else _) = _
  rw [Nat.zero_add, if_pos hi]

/-- The last record of a capture, with a completion of its frame behind the file. -/
theorem emitted_completion {record : RawRecord} (hself : ¬SelfContained record.frame)
    (header : List UInt8) (last : UInt8) :
    emitted packet (Mmap.ofList (rawImage header [record, record]) fun i =>
        completion record.frame last (record.frame.length + i)).data
      (rawImage header [record]).length =
      some (framePacket (completion record.frame last) 0 record.timestamp.toNat
        record.microseconds.toNat) := by
  set rest : ℕ → UInt8 := fun i => completion record.frame last (record.frame.length + i)
  set bytes := rawImage header [record, record] with hbytes
  set start := (rawImage header [record]).length + packetHeaderSize with hstart
  have hlength : bytes.length = start + record.frame.length := by
    simp only [hbytes, hstart, rawImage, List.flatMap_cons, List.flatMap_nil, List.length_append,
      RawRecord.encode, length_littleEndian, packetHeaderSize, List.length_nil]
    omega
  obtain ⟨hstores, -⟩ := stores_record (holds_ofList bytes rest)
    (show [record, record][1]? = some record from rfl)
  obtain ⟨hsec, husec, -, hframe⟩ := record.words hstores
  have hmem : ∀ i, (Mmap.ofList bytes rest).data (start + i) =
      completion record.frame last i := by
    intro i
    by_cases hi : i < record.frame.length
    · rw [completion, if_pos hi]
      exact hframe i hi
    · show (if start + i < bytes.length then _ else rest (start + i - bytes.length)) = _
      rw [if_neg (by omega), hlength, Nat.add_sub_add_left]
      exact congrArg (completion record.frame last) (Nat.add_sub_of_le (Nat.le_of_not_lt hi))
  obtain ⟨hports, hpacket⟩ := frame_congr (Mmap.ofList bytes rest).data
    (completion record.frame last) start 0 fun i _ => by rw [hmem, Nat.zero_add]
  have hcomplete := hasPorts_completion hself last
  rw [emitted_eq, if_pos (hports.mpr hcomplete), hpacket hcomplete]
  exact congrArg₂ (fun sec usec => some (framePacket _ 0 sec usec)) hsec husec

/-- What is emitted for a record is the same in any two captures that agree on the record,
whatever else they and the memory behind them hold, exactly if the reader has 0 groups or
the record's frame decides its packet. -/
theorem record_isolated_iff (packet : PcapPacket) (groupNum : UInt8) (record : RawRecord) :
    (∀ (header : List UInt8) (records records' : List RawRecord) (i j : ℕ) (buff buff' : Mmap),
      header.length = fileHeaderSize → DifferAt j records records' → i ≠ j →
      records[i]? = some record → buff.Holds (rawImage header records) →
      buff'.Holds (rawImage header records') →
      emission packet buff (pcapReader groupNum) i =
        emission packet buff' (pcapReader groupNum) i) ↔
      groupNum = 0 ∨ SelfContained record.frame := by
  constructor
  · intro hisolated
    refine Classical.or_iff_not_imp_left.mpr fun hgroups => ?_
    refine Classical.byContradiction fun hself => ?_
    -- two equal captures, with different bytes behind the file
    let header := List.replicate fileHeaderSize (0 : UInt8)
    let buff (last : UInt8) := Mmap.ofList (rawImage header [record, record]) fun i =>
      completion record.frame last (record.frame.length + i)
    have hemission (last : UInt8) : emission packet (buff last) (pcapReader groupNum) 1 =
        some (framePacket (completion record.frame last) 0 record.timestamp.toNat
          record.microseconds.toNat) := by
      rw [emission_eq hgroups (List.length_replicate ..) (holds_ofList _ _)
        (show [record, record][1]? = some record from rfl)]
      exact emitted_completion hself header last
    have hsame := hisolated header [record, record] [record, record] 1 0 (buff 0) (buff 1)
      (List.length_replicate ..) ⟨Nat.zero_lt_two, rfl, fun _ _ => rfl⟩ Nat.one_ne_zero rfl
      (holds_ofList _ _) (holds_ofList _ _)
    rw [hemission, hemission, Option.some.injEq] at hsame
    exact absurd (framePacket_completion_inj hself hsame) (by decide)
  · rintro (rfl | hself)
    · intro header records records' i j buff buff' _ _ _ _ _ _
      rw [emission_of_zero, emission_of_zero]
    · intro header records records' i j buff buff' hheader hdiffer hij hi hbuff hbuff'
      by_cases hgroups : groupNum = 0
      · rw [hgroups, emission_of_zero, emission_of_zero]
      · have hi' : records'[i]? = some record := (hdiffer.others i hij).trans hi
        rw [emission_eq hgroups hheader hbuff hi, emission_eq hgroups hheader hbuff' hi']
        exact emitted_congr hself (stores_record hbuff hi).1 (stores_record hbuff' hi').1

/-- A TCP frame that ends behind the IPv4 header. -/
def cutRecord : RawRecord where
  timestamp := 100
  microseconds := 7
  lengthWire := 34
  frame := List.replicate 12 0 ++ [0x08, 0x00, 0x45] ++ List.replicate 8 0 ++ [6, 0, 0] ++
    [10, 0, 0, 1] ++ [10, 0, 0, 2]
  frame_lt := by decide

/-- A record with an empty frame, captured at `timestamp`. -/
def emptyRecord (timestamp : UInt32) : RawRecord where
  timestamp := timestamp
  microseconds := 0
  lengthWire := 0
  frame := []
  frame_lt := by decide

/-- The timestamp of the next record becomes the source port. -/
theorem ports_from_next_record :
    let header := List.replicate 24 (0 : UInt8)
    let records := [cutRecord, emptyRecord 0]
    let records' := [cutRecord, emptyRecord 1]
    let buff := Mmap.ofList (rawImage header records) fun _ => 0
    let buff' := Mmap.ofList (rawImage header records') fun _ => 0
    let packet : PcapPacket := ⟨0, 0, 0, 0, 0, 0, 0, 0⟩
    header.length = fileHeaderSize ∧ DifferAt 1 records records' ∧
      buff.Holds (rawImage header records) ∧ buff'.Holds (rawImage header records') ∧
      (emission packet buff (pcapReader 1) 0).map (·.scrPort) = some 0 ∧
      (emission packet buff' (pcapReader 1) 0).map (·.scrPort) = some 256 := by
  refine ⟨rfl, ⟨by decide, rfl, ?_⟩, holds_ofList _ _, holds_ofList _ _, ?_, ?_⟩
  · intro k hk
    match k with
    | 0 => rfl
    | 1 => exact absurd rfl hk
    | k + 2 => rfl
  · decide
  · decide

end Restore.Pcap
