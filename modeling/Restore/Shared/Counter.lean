import Mathlib.Data.Nat.Log
import Mathlib.Data.Nat.ModEq
import Mathlib.Order.Bounds.Defs

/-! # Free-running 32-bit counters

A counter that is only ever advanced is followed by the natural number of units it
has counted; the machine word holds that number modulo `2 ^ 32`. Differences of
words recover differences of counts as long as the counts are close. -/

namespace Restore.Counter

/-- The word held by a counter that has counted `k` units. -/
abbrev word (k : ℕ) : UInt32 := UInt32.ofNat k

@[simp] theorem word_toNat (k : ℕ) : (word k).toNat = k % 2 ^ 32 := by
  simp [word]

theorem word_add (a b : ℕ) : word a + word b = word (a + b) :=
  (UInt32.ofNat_add a b).symm

theorem word_add_toNat (a : ℕ) (n : UInt32) : word a + n = word (a + n.toNat) := by
  rw [← word_add]
  simp [word]

theorem word_self (n : UInt32) : word n.toNat = n := by
  simp [word]

/-- Close counts have exact word differences. -/
theorem word_sub_toNat {a b : ℕ} (hab : a ≤ b) (hclose : b - a < 2 ^ 32) :
    (word b - word a).toNat = b - a := by
  rw [UInt32.toNat_sub, word_toNat, word_toNat]
  omega

theorem word_sub {a b : ℕ} (hab : a ≤ b) : word b - word a = word (b - a) := by
  have h : word b = word a + word (b - a) := by
    rw [word_add]
    congr 1
    omega
  rw [h]
  grind

/-- Close counts with one word are one count. -/
theorem eq_of_word_eq {a b : ℕ} (hab : a ≤ b) (hclose : b - a < 2 ^ 32)
    (h : word a = word b) : a = b := by
  have hzero := word_sub_toNat hab hclose
  rw [h, UInt32.sub_self] at hzero
  exact Nat.le_antisymm hab (Nat.sub_eq_zero_iff_le.mp hzero.symm)

/-! ## Power-of-two slots -/

theorem isLeast_pow_clog {b : ℕ} (hb : 1 < b) (n : ℕ) :
    IsLeast {p | n ≤ p ∧ ∃ m, p = b ^ m} (b ^ Nat.clog b n) := by
  constructor
  · exact ⟨Nat.le_pow_clog hb n, Nat.clog b n, rfl⟩
  · rintro _ ⟨hle, m, rfl⟩
    exact Nat.pow_le_pow_right (Nat.zero_lt_of_lt hb) (Nat.clog_le_of_le_pow hle)

/-- Masking a counter with `2 ^ m - 1` selects its slot among `2 ^ m`. -/
theorem word_and_mask (k m : ℕ) (hm : m ≤ 32) (mask : UInt32)
    (hmask : mask.toNat = 2 ^ m - 1) :
    (word k &&& mask).toNat = k % 2 ^ m := by
  rw [UInt32.toNat_and, word_toNat, hmask, Nat.and_two_pow_sub_one_eq_mod]
  exact Nat.mod_mod_of_dvd k (Nat.pow_dvd_pow 2 hm)

section

variable {size : UInt32} {bits : ℕ}

theorem bits_lt (hsize : size.toNat = 2 ^ bits) : bits < 32 := by
  have hlt := size.toNat_lt
  rw [hsize] at hlt
  exact (Nat.pow_lt_pow_iff_right (by decide)).mp hlt

theorem sub_one_toNat {n : UInt32} (hn : 0 < n.toNat) : (n - 1).toNat = n.toNat - 1 := by
  have hlt := n.toNat_lt
  rw [UInt32.toNat_sub, UInt32.toNat_one]
  omega

theorem mask_toNat (hsize : size.toNat = 2 ^ bits) : (size - 1).toNat = 2 ^ bits - 1 := by
  rw [sub_one_toNat (hsize ▸ Nat.two_pow_pos bits), hsize]

theorem slot_toNat (hsize : size.toNat = 2 ^ bits) (k : ℕ) :
    (word k &&& (size - 1)).toNat = k % 2 ^ bits :=
  word_and_mask k bits (bits_lt hsize).le _ (mask_toNat hsize)

end

/-- Distinct counts less than one turn apart select distinct slots. -/
theorem slot_ne {a b size : ℕ} (hne : a ≠ b) (hab : a < b + size) (hba : b < a + size) :
    a % size ≠ b % size := by
  intro h
  rcases Nat.lt_or_gt_of_ne hne with hlt | hgt
  · have hd : size ∣ b - a := (Nat.modEq_iff_dvd' hlt.le).mp h
    have := Nat.le_of_dvd (Nat.sub_pos_of_lt hlt) hd
    omega
  · have hd : size ∣ a - b := (Nat.modEq_iff_dvd' hgt.le).mp h.symm
    have := Nat.le_of_dvd (Nat.sub_pos_of_lt hgt) hd
    omega

end Restore.Counter
