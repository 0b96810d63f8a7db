import Restore.Model.RingBuff
import Restore.Verification.BuffRing.Equations

/-! # Sizes and index masks of both rings

For which requested sizes the constructors of `BuffRing` and `RingBuff` return, and which
slots the mask `size_ - 1` then selects. -/

namespace Restore.RingBuff

open BuffRing Counter Rounds

variable {T : Type*}

/-! ## Index masks -/

/-- `mask` takes every index to one of `size` slots, and an index that has counted `k`
steps, wrapped or not, to slot `k mod size`. -/
structure IndexMask (size mask : UInt32) : Prop where
  mask_eq : mask = size - 1
  slot_lt : ∀ index : UInt32, (index &&& mask).toNat < size.toNat
  slot_eq : ∀ k, (word k &&& mask).toNat = k % size.toNat

theorem indexMask_of_bits {size : UInt32} {bits : ℕ} (hsize : size.toNat = 2 ^ bits) :
    IndexMask size (size - 1) := by
  refine ⟨rfl, fun index => ?_, fun k => ?_⟩
  · rw [← word_self index, slot_toNat hsize, hsize]
    exact Nat.mod_lt _ (Nat.two_pow_pos bits)
  · rw [slot_toNat hsize, hsize]

/-! ## Rounding up -/

/-- `s` is the least power of two from `a` on. -/
def LeastPowerOf2 (a s : UInt32) : Prop :=
  IsLeast {p | a.toNat ≤ p ∧ ∃ m, p = 2 ^ m} s.toNat

/-- The loop ends for the sizes up to `2 ^ 31` and for no others. -/
theorem roundup_endsWith_iff (a : UInt32) (post : UInt32 → Prop) :
    EndsWith (fun fuel => BuffRing.roundupPowerOf2 fuel a) post ↔
      a.toNat ≤ 2 ^ 31 ∧ post (word (2 ^ Nat.clog 2 a.toNat)) := by
  rw [(roundupPowerOf2_stable a).endsWith_iff]
  constructor
  · rintro ⟨fuel, s, hrun, hpost⟩
    obtain ⟨hle, rfl⟩ := roundupPowerOf2_eq_some hrun
    exact ⟨hle, hpost⟩
  · rintro ⟨hle, hpost⟩
    exact ⟨32, _, roundupPowerOf2_of_le a hle 32 le_rfl, hpost⟩

/-- A constructor that makes `f s` of the rounded-up size `s` returns for the same sizes. -/
theorem roundup_map_endsWith_iff {α : Type*} (a : UInt32) (f : UInt32 → α) (post : α → Prop) :
    EndsWith (fun fuel => (BuffRing.roundupPowerOf2 fuel a).map f) post ↔
      a.toNat ≤ 2 ^ 31 ∧ post (f (word (2 ^ Nat.clog 2 a.toNat))) := by
  rw [(roundupPowerOf2_stable a).endsWith_map f, roundup_endsWith_iff]

/-- Both copies of the rounding return exactly for the sizes up to `2 ^ 31`, with the least
power of two from the size on. Exactly then both constructors return, and `size_ - 1` is a
valid index mask. -/
theorem roundup_valid_iff (a : UInt32) (behavior : BuffRingBehavior) (sp sc : Bool)
    (data : ℕ → T) :
    (EndsWith (fun fuel => BuffRing.roundupPowerOf2 fuel a)
        (fun s => a.toNat ≤ 2 ^ 31 → LeastPowerOf2 a s) ↔ a.toNat ≤ 2 ^ 31) ∧
    (EndsWith (fun fuel => roundupPowerOf2 fuel a)
        (fun s => a.toNat ≤ 2 ^ 31 → LeastPowerOf2 a s) ↔ a.toNat ≤ 2 ^ 31) ∧
    (EndsWith (fun fuel => buffRing fuel a behavior sp sc data)
        (fun ring => IndexMask ring.1.size ring.1.mask) ↔ a.toNat ≤ 2 ^ 31) ∧
    (EndsWith (fun fuel => ringBuff fuel a data) (fun r => IndexMask r.size (r.size - 1)) ↔
      a.toNat ≤ 2 ^ 31) := by
  have hsize (hle : a.toNat ≤ 2 ^ 31) :
      (word (2 ^ Nat.clog 2 a.toNat)).toNat = 2 ^ Nat.clog 2 a.toNat :=
    word_two_pow_toNat (Nat.clog_le_of_le_pow hle)
  have hround : EndsWith (fun fuel => BuffRing.roundupPowerOf2 fuel a)
      (fun s => a.toNat ≤ 2 ^ 31 → LeastPowerOf2 a s) ↔ a.toNat ≤ 2 ^ 31 := by
    rw [roundup_endsWith_iff]
    refine and_iff_left_of_imp fun hle _ => ?_
    rw [LeastPowerOf2, hsize hle]
    exact isLeast_pow_clog (by decide) a.toNat
  refine ⟨hround, hround, ?_, ?_⟩
  · unfold buffRing
    rw [roundup_map_endsWith_iff]
    exact and_iff_left_of_imp fun hle => indexMask_of_bits (hsize hle)
  · unfold ringBuff roundupPowerOf2
    rw [roundup_map_endsWith_iff]
    exact and_iff_left_of_imp fun hle => indexMask_of_bits (hsize hle)

/-- For `0x80000001` neither copy and neither constructor ever returns. -/
theorem roundup_runs_forever :
    (∀ fuel, BuffRing.roundupPowerOf2 fuel 0x80000001 = none) ∧
    (∀ fuel, roundupPowerOf2 fuel 0x80000001 = none) ∧
    (∀ fuel, buffRing fuel 0x80000001 .kRingQueueFixed true true (fun _ => (0 : ℕ)) = none) ∧
    (∀ fuel, ringBuff fuel 0x80000001 (fun _ => (0 : ℕ)) = none) := by
  have hnone : ∀ fuel, BuffRing.roundupPowerOf2 fuel 0x80000001 = none :=
    BuffRing.roundupPowerOf2_none 0x80000001 (by decide)
  refine ⟨hnone, hnone, fun fuel => ?_, fun fuel => ?_⟩
  · rw [buffRing, hnone, Option.map_none]
  · rw [ringBuff, roundupPowerOf2, hnone, Option.map_none]

end Restore.RingBuff
