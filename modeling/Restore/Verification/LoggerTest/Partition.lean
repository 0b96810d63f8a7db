import Restore.Model.LoggerTest
import Restore.Shared.WorkSharing
import Restore.Verification.Pcap.Decode

/-! # How the packet threads share a capture

Thread `id` takes the group `id % group_num_`. The number of groups is the number of threads
narrowed to 8 bits, so that the threads share the parsed packets out as long as it fits. -/

namespace Restore.LoggerTest

open Pcap Fetch WorkSharing

/-- The packets that `ReadPcapFile` parses, in order. -/
def parsed (packet : PcapPacket) (fileReader : Str → Option Mmap) (rte : Rte) :
    List PcapPacket :=
  match fileReader (cStr rte.pcapFile) with
  | none => []
  | some buff => emittedFrom packet buff.data buff.length fileHeaderSize

/-- No modulo is by 0, and every parsed packet goes to one packet thread. -/
def SharesOut (packet : PcapPacket) (fileReader : Str → Option Mmap) (rte : Rte) : Prop :=
  ∃ gPcapReaderPtr ret,
    pcapReaderInit packet fileReader rte = some (gPcapReaderPtr, ret) ∧
      ∃ ppv : Int32 → List PcapPacket,
        (∀ id ∈ threadIds rte.packetCoreNum, packetGet gPcapReaderPtr id = some (ppv id)) ∧
        ((threadIds rte.packetCoreNum).flatMap ppv).Perm (parsed packet fileReader rte)

variable {packet : PcapPacket} {fileReader : Str → Option Mmap} {rte : Rte}

/-! ## Numbers of groups and threads -/

def groupNum (rte : Rte) : UInt8 := UInt8.ofInt rte.packetCoreNum.toInt

theorem groupNum_toNat (h : 1 ≤ rte.packetCoreNum.toInt) :
    (groupNum rte).toNat = rte.packetCoreNum.toNatClampNeg % 2 ^ 8 := by
  rw [groupNum, UInt8.ofInt, Int32.toNatClampNeg, UInt8.toNat_ofNat']
  omega

theorem groupNum_eq_zero_iff (h : 1 ≤ rte.packetCoreNum.toInt) :
    groupNum rte = 0 ↔ rte.packetCoreNum.toNatClampNeg % 2 ^ 8 = 0 := by
  rw [← groupNum_toNat h, ← UInt8.toNat_inj]
  rfl

theorem threadIds_map (coreNum : Int32) (f : ℕ → ℕ) :
    (threadIds coreNum).map (fun id => f id.toNatClampNeg) =
      (List.range coreNum.toNatClampNeg).map f := by
  rw [threadIds, List.map_map]
  refine List.map_congr_left fun i hi => ?_
  have hlt := Nat.lt_trans (List.mem_range.mp hi) (Int32.toNatClampNeg_lt coreNum)
  rw [Function.comp_apply, Int32.toNatClampNeg_ofNat_of_lt hlt]

/-- The ids of threads are not negative. -/
theorem toNat_of_mem_threadIds {coreNum id : Int32} (h : id ∈ threadIds coreNum) :
    (UInt64.ofInt id.toInt).toNat = id.toNatClampNeg := by
  obtain ⟨i, hi, rfl⟩ := List.mem_map.mp h
  have hlt := Nat.lt_trans (List.mem_range.mp hi) (Int32.toNatClampNeg_lt coreNum)
  rw [Int32.toNatClampNeg_ofNat_of_lt hlt, Int32.toInt_ofNat_of_lt hlt, UInt64.ofInt,
    UInt64.toNat_ofNat']
  omega

/-! ## The reader that the threads find -/

theorem pcapReaderInit_eq (hgroups : groupNum rte ≠ 0) :
    ∃ ret, pcapReaderInit packet fileReader rte =
      some (⟨groupNum rte, referenceDatas (groupNum rte) (parsed packet fileReader rte)⟩, ret) := by
  have hreader : pcapReader (groupNum rte) =
      ⟨groupNum rte, referenceDatas (groupNum rte) []⟩ := by
    simp only [pcapReader, referenceDatas, List.filter_nil, List.map_const', List.length_range]
  rw [pcapReaderInit, parsed]
  cases fileReader (cStr rte.pcapFile) with
  | none =>
      refine ⟨-1, ?_⟩
      dsimp only
      rw [← groupNum, hreader, readPcapFile, value_pure]
  | some buff =>
      refine ⟨0, ?_⟩
      dsimp only
      rw [← groupNum, hreader]
      simp only [readPcapFile, value_bind, value_pure, value_readRecords hgroups, List.nil_append,
        Option.map_some]

theorem groupNum_of_pcapReaderInit (hgroups : groupNum rte = 0) {gPcapReaderPtr : PcapReader}
    {ret : Int} (h : pcapReaderInit packet fileReader rte = some (gPcapReaderPtr, ret)) :
    gPcapReaderPtr.groupNum = 0 := by
  rw [pcapReaderInit, ← groupNum, hgroups] at h
  cases hfile : fileReader (cStr rte.pcapFile) with
  | none =>
      rw [hfile] at h
      cases h
      rfl
  | some buff =>
      rw [hfile] at h
      simp only [readPcapFile, value_bind, value_pure,
        value_readRecords_of_zero _ _ _ _ (show (pcapReader 0).groupNum = 0 from rfl)] at h
      split at h
      · cases h
        rfl
      · cases h

theorem packetGet_eq {groupNum : UInt8} (hgroups : groupNum ≠ 0) (packets : List PcapPacket)
    {coreNum id : Int32} (hid : id ∈ threadIds coreNum) :
    packetGet ⟨groupNum, referenceDatas groupNum packets⟩ id =
      some (packets.filter fun packet =>
        groupOf groupNum packet = id.toNatClampNeg % groupNum.toNat) := by
  have hpos : 0 < groupNum.toNat := Nat.pos_of_ne_zero fun h => hgroups (UInt8.toNat_inj.mp h)
  rw [packetGet, PcapReader.getPcapPacketVector, if_neg hgroups, UInt64.toNat_mod,
    UInt8.toNat_toUInt64, toNat_of_mem_threadIds hid]
  exact getElem?_referenceDatas groupNum packets (Nat.mod_lt _ hpos)

/-! ## Sharing out -/

theorem sharesOut_iff_perm (hgroups : groupNum rte ≠ 0) :
    SharesOut packet fileReader rte ↔
      (shares (parsed packet fileReader rte) (groupOf (groupNum rte))
        (fun id : Int32 => id.toNatClampNeg % (groupNum rte).toNat)
        (threadIds rte.packetCoreNum)).Perm (parsed packet fileReader rte) := by
  obtain ⟨ret, hinit⟩ : ∃ ret, pcapReaderInit packet fileReader rte = some (_, ret) :=
    pcapReaderInit_eq hgroups
  have hget : ∀ id ∈ threadIds rte.packetCoreNum, packetGet _ id = some _ := fun id hid =>
    packetGet_eq hgroups (parsed packet fileReader rte) hid
  rw [SharesOut, hinit]
  constructor
  · rintro ⟨r, _, hr, ppv, hppv, hperm⟩
    cases hr
    have hshare : ∀ id ∈ threadIds rte.packetCoreNum, ppv id = _ := fun id hid =>
      Option.some.inj ((hppv id hid).symm.trans (hget id hid))
    rwa [List.flatMap_congr hshare] at hperm
  · exact fun hperm => ⟨_, _, rfl, _, hget, hperm⟩

theorem sharesOut_iff_count (hgroups : groupNum rte ≠ 0) :
    SharesOut packet fileReader rte ↔
      ∀ p ∈ parsed packet fileReader rte,
        ((List.range rte.packetCoreNum.toNatClampNeg).map (· % (groupNum rte).toNat)).count
          (groupOf (groupNum rte) p) = 1 := by
  rw [sharesOut_iff_perm hgroups, shares_perm_iff,
    threadIds_map rte.packetCoreNum (· % (groupNum rte).toNat)]

/-- Without groups, the first thread's lookup is a modulo by 0. -/
theorem not_sharesOut_of_zero (hcores : 1 ≤ rte.packetCoreNum.toInt)
    (hgroups : groupNum rte = 0) : ¬SharesOut packet fileReader rte := by
  rintro ⟨r, ret, hinit, ppv, hppv, -⟩
  have hfirst : Int32.ofNat 0 ∈ threadIds rte.packetCoreNum := by
    refine List.mem_map_of_mem (List.mem_range.mpr ?_)
    rw [Int32.toNatClampNeg]
    omega
  have htrap : packetGet r (Int32.ofNat 0) = none := by
    rw [packetGet, PcapReader.getPcapPacketVector,
      if_pos (groupNum_of_pcapReaderInit hgroups hinit)]
  exact nomatch htrap.symm.trans (hppv _ hfirst)

/-- The packet threads share a capture out exactly if their number fits in 8 bits, or if it is
no multiple of 256 and the capture has no packet to share. -/
theorem sharesOut_iff (packet : PcapPacket) (fileReader : Str → Option Mmap) (rte : Rte)
    (hcores : 1 ≤ rte.packetCoreNum.toInt) :
    SharesOut packet fileReader rte ↔
      rte.packetCoreNum.toInt < 256 ∨
        (rte.packetCoreNum.toInt % 256 ≠ 0 ∧ parsed packet fileReader rte = []) := by
  have hnat : (rte.packetCoreNum.toNatClampNeg : Int) = rte.packetCoreNum.toInt :=
    Int.toNat_of_nonneg (by omega)
  have hmod := groupNum_toNat hcores
  by_cases hgroups : groupNum rte = 0
  · have hzero := (groupNum_eq_zero_iff hcores).mp hgroups
    refine iff_of_false (not_sharesOut_of_zero hcores hgroups) ?_
    rintro (hlt | ⟨hne, -⟩) <;> omega
  · have hne := mt (groupNum_eq_zero_iff hcores).mpr hgroups
    have hpos : 0 < (groupNum rte).toNat := by omega
    rw [sharesOut_iff_count hgroups]
    by_cases hlt : rte.packetCoreNum.toInt < 256
    · have hcores : rte.packetCoreNum.toNatClampNeg = (groupNum rte).toNat := by omega
      rw [hcores]
      exact iff_of_true (fun p _ => count_map_mod (Nat.mod_lt _ hpos)) (Or.inl hlt)
    · constructor
      · intro hcount
        refine Or.inr ⟨by omega, List.eq_nil_iff_forall_not_mem.mpr fun p hp => ?_⟩
        -- the group of `p` has two threads
        have htwice : (groupNum rte).toNat + (groupNum rte).toNat ≤
            rte.packetCoreNum.toNatClampNeg := by omega
        have hcount_two := two_le_count_map_mod (Nat.mod_lt (hash4Tuple p).toNat hpos) htwice
        have hcount_one := hcount p hp
        rw [groupOf] at hcount_one
        omega
      · rintro (h | ⟨-, hnil⟩)
        · exact absurd h hlt
        · rw [hnil]
          exact fun p hp => absurd hp List.not_mem_nil

/-- Two packet threads on a machine with four cores. -/
def twoThreads : Rte := { coreNum := 4, packetCoreNum := 2 }

/-- A path that leads to a capture of one TCP segment. -/
def tcpFileReader (_ : Str) : Option Mmap :=
  let bytes := image (List.replicate 24 0) [tcpRecord]
  some ⟨memoryOf bytes, bytes.length⟩

theorem sharesOut_of_two_threads :
    SharesOut ⟨0, 0, 0, 0, 0, 0, 0, 0⟩ tcpFileReader twoThreads :=
  (sharesOut_iff _ _ _ (by decide)).mpr (Or.inl (by decide))

/-- 256 threads leave no group. -/
theorem modulo_zero_of_256_threads :
    ¬SharesOut ⟨0, 0, 0, 0, 0, 0, 0, 0⟩ tcpFileReader { coreNum := 4, packetCoreNum := 256 } :=
  not_sharesOut_of_zero (by decide) (by decide)

end Restore.LoggerTest
