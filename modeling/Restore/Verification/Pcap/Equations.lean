import Restore.Model.Pcap
import Mathlib.Tactic.Set

/-! # What the reader's loads return

The words that `ParsePacket` assembles, as big-endian numbers of the bytes in memory. -/

namespace Restore.Pcap

open Fetch

/-! ## Byte order -/

/-- The number whose bytes, most significant first, are `bytes`. -/
def bigEndian (bytes : List UInt8) : ℕ :=
  bytes.foldl (fun n b => n * 2 ^ 8 + b.toNat) 0

/-- A shifted high part and a low part below it share no bit. -/
theorem shiftLeft_or_eq_add (high : ℕ) {low k : ℕ} (hlow : low < 2 ^ k) :
    high <<< k ||| low = high * 2 ^ k + low := by
  rw [Nat.shiftLeft_eq, Nat.mul_comm, ← Nat.two_pow_add_eq_or_of_lt hlow]

theorem byteOf_toNat (v k : ℕ) : (byteOf v k).toNat = v / 2 ^ (8 * k) % 2 ^ 8 := by
  simp [byteOf]

/-- Bytes shifted into place add up. -/
theorem bytes_or {b0 b1 b2 b3 : ℕ} (h1 : b1 < 2 ^ 8) (h2 : b2 < 2 ^ 8) (h3 : b3 < 2 ^ 8) :
    b0 <<< 24 ||| b1 <<< 16 ||| b2 <<< 8 ||| b3 =
      b0 * 2 ^ 24 + b1 * 2 ^ 16 + b2 * 2 ^ 8 + b3 := by
  have hlow : b2 <<< 8 ||| b3 = b2 * 2 ^ 8 + b3 := shiftLeft_or_eq_add b2 h3
  have hmid : b1 <<< 16 ||| (b2 * 2 ^ 8 + b3) = b1 * 2 ^ 16 + (b2 * 2 ^ 8 + b3) :=
    shiftLeft_or_eq_add b1 (by omega)
  rw [Nat.or_assoc, Nat.or_assoc, hlow, hmid, shiftLeft_or_eq_add b0 (by omega)]
  omega

theorem htobe16_toNat (v : UInt16) :
    (htobe16 v).toNat = v.toNat % 2 ^ 8 * 2 ^ 8 + v.toNat / 2 ^ 8 := by
  have hv := v.toNat_lt
  have hhigh : (v.toNat % 2 ^ 8) <<< 8 % 2 ^ 16 = (v.toNat % 2 ^ 8) <<< 8 := by
    rw [Nat.shiftLeft_eq]
    omega
  have height : (8 : UInt16).toNat % 16 = 8 := rfl
  simp only [htobe16, UInt16.toNat_or, UInt16.toNat_shiftLeft, UInt8.toNat_toUInt16, byteOf_toNat,
    height, Nat.mul_zero, Nat.pow_zero, Nat.div_one, Nat.mul_one, hhigh]
  rw [shiftLeft_or_eq_add _ (Nat.mod_lt _ (by decide))]
  omega

theorem htobe32_toNat (v : UInt32) :
    (htobe32 v).toNat = v.toNat % 2 ^ 8 * 2 ^ 24 + v.toNat / 2 ^ 8 % 2 ^ 8 * 2 ^ 16 +
      v.toNat / 2 ^ 16 % 2 ^ 8 * 2 ^ 8 + v.toNat / 2 ^ 24 := by
  have hv := v.toNat_lt
  have hshift : ∀ n k : ℕ, k ≤ 24 → (n % 2 ^ 8) <<< k % 2 ^ 32 = (n % 2 ^ 8) <<< k := by
    intro n k hk
    have hpow : 2 ^ k ≤ 2 ^ 24 := Nat.pow_le_pow_right (by decide) hk
    rw [Nat.shiftLeft_eq]
    apply Nat.mod_eq_of_lt
    calc n % 2 ^ 8 * 2 ^ k
      _ < 2 ^ 8 * 2 ^ k :=
        Nat.mul_lt_mul_of_pos_right (Nat.mod_lt _ (by decide)) (Nat.two_pow_pos k)
      _ ≤ 2 ^ 8 * 2 ^ 24 := Nat.mul_le_mul_left _ hpow
      _ = 2 ^ 32 := rfl
  have h24 : (24 : UInt32).toNat % 32 = 24 := rfl
  have h16 : (16 : UInt32).toNat % 32 = 16 := rfl
  have h8 : (8 : UInt32).toNat % 32 = 8 := rfl
  simp only [htobe32, UInt32.toNat_or, UInt32.toNat_shiftLeft, UInt8.toNat_toUInt32, byteOf_toNat,
    h24, h16, h8, hshift _ 24 (by decide), hshift _ 16 (by decide), hshift _ 8 (by decide)]
  rw [bytes_or (Nat.mod_lt _ (by decide)) (Nat.mod_lt _ (by decide)) (Nat.mod_lt _ (by decide))]
  omega

/-- A 16-bit field in network order is the big-endian number of its two bytes. -/
theorem ntoh16_host (b0 b1 : UInt8) :
    (ntoh16 (UInt16.ofNat (b0.toNat + 2 ^ 8 * b1.toNat)).toInt16).toUInt16 =
      UInt16.ofNat (bigEndian [b0, b1]) := by
  have h0 := b0.toNat_lt
  have h1 := b1.toNat_lt
  have hword : (UInt16.ofNat (b0.toNat + 2 ^ 8 * b1.toNat)).toNat =
      b0.toNat + 2 ^ 8 * b1.toNat := by
    rw [UInt16.toNat_ofNat', Nat.mod_eq_of_lt (by omega)]
  have hlow : (b0.toNat + 2 ^ 8 * b1.toNat) % 2 ^ 8 = b0.toNat := by omega
  have hhigh : (b0.toNat + 2 ^ 8 * b1.toNat) / 2 ^ 8 = b1.toNat := by omega
  apply UInt16.toNat_inj.mp
  rw [ntoh16, UInt16.toUInt16_toInt16, UInt16.toUInt16_toInt16, betoh16, htobe16_toNat, hword,
    hlow, hhigh, UInt16.toNat_ofNat', Nat.mod_eq_of_lt] <;>
    simp only [bigEndian, List.foldl] <;> omega

/-- A 32-bit field in network order is the big-endian number of its four bytes. -/
theorem ntoh32_host (b0 b1 b2 b3 : UInt8) :
    (ntoh32 (UInt32.ofNat
      (b0.toNat + 2 ^ 8 * b1.toNat + 2 ^ 16 * b2.toNat + 2 ^ 24 * b3.toNat)).toInt32).toUInt32 =
      UInt32.ofNat (bigEndian [b0, b1, b2, b3]) := by
  have h0 := b0.toNat_lt
  have h1 := b1.toNat_lt
  have h2 := b2.toNat_lt
  have h3 := b3.toNat_lt
  set v := b0.toNat + 2 ^ 8 * b1.toNat + 2 ^ 16 * b2.toNat + 2 ^ 24 * b3.toNat with hv
  have hword : (UInt32.ofNat v).toNat = v := by
    rw [UInt32.toNat_ofNat', Nat.mod_eq_of_lt (by omega)]
  have hb0 : v % 2 ^ 8 = b0.toNat := by omega
  have hb1 : v / 2 ^ 8 % 2 ^ 8 = b1.toNat := by omega
  have hb2 : v / 2 ^ 16 % 2 ^ 8 = b2.toNat := by omega
  have hb3 : v / 2 ^ 24 = b3.toNat := by omega
  apply UInt32.toNat_inj.mp
  rw [ntoh32, UInt32.toUInt32_toInt32, UInt32.toUInt32_toInt32, betoh32, htobe32_toNat, hword,
    hb0, hb1, hb2, hb3, UInt32.toNat_ofNat', Nat.mod_eq_of_lt] <;>
    simp only [bigEndian, List.foldl] <;> omega

/-! ## Loads -/

section Loads

variable (mem : ℕ → UInt8) (start : ℕ)

@[simp] theorem value_load32 : (load32 start).value mem =
    UInt32.ofNat ((mem start).toNat + 2 ^ 8 * (mem (start + 1)).toNat +
      2 ^ 16 * (mem (start + 2)).toNat + 2 ^ 24 * (mem (start + 3)).toNat) := rfl

@[simp] theorem value_loadNet16 : (loadNet16 start).value mem =
    UInt16.ofNat (bigEndian [mem start, mem (start + 1)]) :=
  ntoh16_host (mem start) (mem (start + 1))

@[simp] theorem value_loadNet32 : (loadNet32 start).value mem =
    UInt32.ofNat (bigEndian
      [mem start, mem (start + 1), mem (start + 2), mem (start + 3)]) :=
  ntoh32_host (mem start) (mem (start + 1)) (mem (start + 2)) (mem (start + 3))

variable {mem} {length : ℕ}

@[simp] theorem within_loadNet16 : (loadNet16 start).Within mem length ↔ start + 1 < length := by
  simp [loadNet16, load16]
  omega

@[simp] theorem within_load32 : (load32 start).Within mem length ↔ start + 3 < length := by
  simp [load32]
  omega

@[simp] theorem within_loadNet32 : (loadNet32 start).Within mem length ↔ start + 3 < length := by
  simp [loadNet32]

theorem within_loadPacketHeader :
    (loadPacketHeader start).Within mem length ↔ start + packetHeaderSize ≤ length := by
  simp [loadPacketHeader, packetHeaderSize]
  omega

end Loads

/-! ## Frames -/

/-- The ether type of the frame at `start` is 0x0800. -/
def IsIpv4 (mem : ℕ → UInt8) (start : ℕ) : Prop :=
  bigEndian [mem (start + 12), mem (start + 13)] = 0x0800

/-- The frame at `start` is IPv4 with protocol TCP or UDP. -/
def HasPorts (mem : ℕ → UInt8) (start : ℕ) : Prop :=
  IsIpv4 mem start ∧ (mem (start + 23) = ipprotoTcp ∨ mem (start + 23) = ipprotoUdp)

instance (mem : ℕ → UInt8) (start : ℕ) : Decidable (IsIpv4 mem start) :=
  inferInstanceAs (Decidable (_ = _))

instance (mem : ℕ → UInt8) (start : ℕ) : Decidable (HasPorts mem start) :=
  inferInstanceAs (Decidable (_ ∧ _))

/-- `14 + 4 * IHL`, where the ports stand in a frame that has them. -/
def portsOffset (mem : ℕ → UInt8) (start : ℕ) : ℕ :=
  14 + 4 * ((mem (start + 14)).toNat % 16)

/-- The length that the frame at `start` must have for the fields its type selects. -/
def headerSpan (mem : ℕ → UInt8) (start : ℕ) : ℕ :=
  if HasPorts mem start then max 34 (portsOffset mem start + 4)
  else if IsIpv4 mem start then 34
  else 14

/-- The packet that a frame with ports describes. -/
def framePacket (mem : ℕ → UInt8) (start tvSec tvUsec : ℕ) : PcapPacket :=
  let ports := start + portsOffset mem start
  { tvSec, tvUsec
    scrIpv4 := UInt32.ofNat (bigEndian
      [mem (start + 26), mem (start + 27), mem (start + 28), mem (start + 29)])
    dstIpv4 := UInt32.ofNat (bigEndian
      [mem (start + 30), mem (start + 31), mem (start + 32), mem (start + 33)])
    scrPort := UInt16.ofNat (bigEndian [mem ports, mem (ports + 1)])
    dstPort := UInt16.ofNat (bigEndian [mem (ports + 2), mem (ports + 3)])
    l3Type := (mem (start + 23)).toUInt16
    l2Type := 0x0800 }

theorem etherTypeIPv4_eq_iff (mem : ℕ → UInt8) (start : ℕ) :
    etherTypeIPv4 = UInt16.ofNat (bigEndian [mem (start + 12), mem (start + 13)]) ↔
      IsIpv4 mem start := by
  have h0 := (mem (start + 12)).toNat_lt
  have h1 := (mem (start + 13)).toNat_lt
  have hlt : bigEndian [mem (start + 12), mem (start + 13)] < 2 ^ 16 := by
    simp only [bigEndian, List.foldl]
    omega
  rw [← UInt16.toNat_inj, UInt16.toNat_ofNat', Nat.mod_eq_of_lt hlt, eq_comm]
  rfl

theorem ihl_shift (b : UInt8) : (b &&& 0x0f).toNat <<< 2 = 4 * (b.toNat % 16) := by
  have hmask : (b &&& 0x0f).toNat = b.toNat % 16 := by
    rw [UInt8.toNat_and]
    exact Nat.and_two_pow_sub_one_eq_mod b.toNat 4
  rw [hmask, Nat.shiftLeft_eq, Nat.mul_comm]

theorem value_parsePacket (mem : ℕ → UInt8) (packet : PcapPacket) (start len : ℕ) :
    ((parsePacket packet start len).value mem).2 = (if HasPorts mem start then 1 else 0) ∧
      (HasPorts mem start → ((parsePacket packet start len).value mem).1 =
        framePacket mem start packet.tvSec packet.tvUsec) := by
  simp only [parsePacket, value_bind, value_loadNet16, etherTypeIPv4_eq_iff]
  by_cases hip : IsIpv4 mem start
  · have htype := (etherTypeIPv4_eq_iff mem start).mpr hip
    rw [if_pos hip]
    simp only [value_bind, value_load, value_loadNet32, ihl_shift, etherHeaderSize,
      Nat.add_assoc, Nat.reduceAdd]
    by_cases htcp : ipprotoTcp = mem (start + 23)
    · have hports : HasPorts mem start := ⟨hip, Or.inl htcp.symm⟩
      rw [if_pos htcp, if_pos hports]
      simp only [value_bind, value_loadNet16, value_pure, ← htype, framePacket, portsOffset,
        Nat.add_assoc, Nat.reduceAdd]
      exact ⟨trivial, fun _ => rfl⟩
    · rw [if_neg htcp]
      simp only [value_bind, value_load]
      by_cases hudp : ipprotoUdp = mem (start + 23)
      · have hports : HasPorts mem start := ⟨hip, Or.inr hudp.symm⟩
        rw [if_pos hudp, if_pos hports]
        simp only [value_bind, value_loadNet16, value_pure, ← htype, framePacket, portsOffset,
          Nat.add_assoc, Nat.reduceAdd]
        exact ⟨trivial, fun _ => rfl⟩
      · have hports : ¬HasPorts mem start := fun h =>
          h.2.elim (fun h => htcp h.symm) fun h => hudp h.symm
        rw [if_neg hudp, if_neg hports]
        exact ⟨rfl, fun h => absurd h hports⟩
  · have hports : ¬HasPorts mem start := fun h => hip h.1
    rw [if_neg hip, if_neg hports]
    exact ⟨rfl, fun h => absurd h hports⟩

theorem within_parsePacket (mem : ℕ → UInt8) (length : ℕ) (packet : PcapPacket)
    (start len : ℕ) :
    (parsePacket packet start len).Within mem length ↔
      start + headerSpan mem start ≤ length := by
  simp only [parsePacket, within_bind, within_loadNet16, value_loadNet16,
    etherTypeIPv4_eq_iff]
  by_cases hip : IsIpv4 mem start
  · rw [if_pos hip]
    simp only [within_bind, within_load, within_loadNet32, value_load, value_loadNet32, ihl_shift,
      etherHeaderSize, Nat.add_assoc, Nat.reduceAdd]
    by_cases htcp : ipprotoTcp = mem (start + 23)
    · have hports : HasPorts mem start := ⟨hip, Or.inl htcp.symm⟩
      rw [if_pos htcp, headerSpan, if_pos hports, portsOffset]
      simp only [within_bind, within_loadNet16, within_pure, and_true]
      omega
    · rw [if_neg htcp]
      simp only [within_bind, within_load, value_load]
      by_cases hudp : ipprotoUdp = mem (start + 23)
      · have hports : HasPorts mem start := ⟨hip, Or.inr hudp.symm⟩
        rw [if_pos hudp, headerSpan, if_pos hports, portsOffset]
        simp only [within_bind, within_loadNet16, within_pure, and_true]
        omega
      · have hports : ¬HasPorts mem start := fun h =>
          h.2.elim (fun h => htcp h.symm) fun h => hudp h.symm
        rw [if_neg hudp, headerSpan, if_neg hports, if_pos hip]
        simp only [within_pure, and_true]
        omega
  · have hports : ¬HasPorts mem start := fun h => hip h.1
    rw [if_neg hip, headerSpan, if_neg hports, if_neg hip]
    simp only [within_pure, and_true]
    omega

end Restore.Pcap
