import Restore.Model.BuffRing
import Restore.Shared.Counter
import Restore.Shared.Rounds
import Mathlib.Data.Nat.Log
import Mathlib.Tactic.IntervalCases

/-! # Computation rules for `BuffRing`: sizes and copy loops -/

namespace Restore.BuffRing

open Restore.Counter Restore.Rounds

/-! ## Sizes -/

/-- `2 ^ bits` slots, the matching mask, and a capacity below the number of slots. -/
structure RingConfig.Sized (c : RingConfig) (bits : ℕ) : Prop where
  bits_le : bits ≤ 31
  size_eq : c.size.toNat = 2 ^ bits
  mask_eq : c.mask.toNat = 2 ^ bits - 1
  capacity_lt : c.capacity.toNat < 2 ^ bits

theorem RingConfig.Sized.two_pow_le {c : RingConfig} {bits : ℕ} (h : c.Sized bits) :
    2 ^ bits ≤ 2 ^ 31 :=
  Nat.pow_le_pow_right (by decide) h.bits_le

theorem isPowerOf2_iff (n : UInt32) :
    isPowerOf2 n = true ↔ ∃ m, m ≤ 31 ∧ n.toNat = 2 ^ m := by
  have hzero : n ≠ 0 ↔ n.toNat ≠ 0 := by
    rw [ne_eq, ← UInt32.toNat_inj]
    simp
  have hand : n ≠ 0 → (n &&& (n - 1) = 0 ↔ n.toNat &&& (n.toNat - 1) = 0) := by
    intro hn
    have hpos : 0 < n.toNat := Nat.pos_of_ne_zero (hzero.mp hn)
    rw [← UInt32.toNat_inj, UInt32.toNat_and, sub_one_toNat hpos]
    simp
  have hpow : isPowerOf2 n = true ↔ n.toNat.isPowerOfTwo := by
    rw [← Nat.ne_zero_and_sub_one_eq_zero_iff_isPowerOfTwo, ← hzero]
    simp only [isPowerOf2, Bool.and_eq_true, bne_iff_ne, beq_iff_eq]
    exact and_congr_right hand
  rw [hpow]
  constructor
  · rintro ⟨m, hm⟩
    exact ⟨m, Nat.le_of_lt_succ (bits_lt hm), hm⟩
  · rintro ⟨m, -, hm⟩
    exact ⟨m, hm⟩

/-- On a non-negative counter the loop adds its bit length to `position`. -/
theorem positionLoop_eq (k fuel : ℕ) (i : BitVec 32) (position : UInt32) (hk : k ≤ 31)
    (hfuel : k < fuel) (hlo : 2 ^ k ≤ 2 * i.toNat + 1) (hhi : i.toNat < 2 ^ k) :
    positionLoop fuel i position = some (position + word k) := by
  induction k generalizing fuel i position with
  | zero =>
      obtain ⟨fuel, rfl⟩ : ∃ f, fuel = f + 1 := ⟨fuel - 1, by omega⟩
      have hi : i = 0 := BitVec.eq_of_toNat_eq (by simpa using hhi)
      simp [positionLoop, hi, word]
  | succ k ih =>
      obtain ⟨fuel, rfl⟩ : ∃ f, fuel = f + 1 := ⟨fuel - 1, by omega⟩
      have hpos : 0 < 2 ^ k := Nat.two_pow_pos k
      have hle : 2 ^ (k + 1) ≤ 2 ^ 31 := Nat.pow_le_pow_right (by decide) hk
      rw [Nat.pow_succ] at hlo hhi hle
      have hne : i ≠ 0 := by
        rintro rfl
        simp at hlo
        omega
      have hmsb : i.msb = false := by
        rw [BitVec.msb_eq_false_iff_two_mul_lt]
        omega
      have hshift : (i.sshiftRight 1).toNat = i.toNat / 2 := by
        rw [BitVec.toNat_sshiftRight_of_msb_false hmsb, Nat.shiftRight_eq_div_pow]
      rw [positionLoop, if_neg hne, ih fuel _ _ (by omega) (by omega) (by omega) (by omega)]
      have hword : word (k + 1) = 1 + word k := by
        rw [Nat.add_comm, ← word_add]
        rfl
      rw [hword, UInt32.add_assoc]

/-- Sizes up to `2 ^ 31` are rounded up to the least power of two. -/
theorem roundupPowerOf2_eq (a : UInt32) (ha : 1 ≤ a.toNat) (hle : a.toNat ≤ 2 ^ 31)
    (fuel : ℕ) (hfuel : 32 ≤ fuel) :
    roundupPowerOf2 fuel a = some (word (2 ^ Nat.clog 2 a.toNat)) := by
  unfold roundupPowerOf2
  split
  · rename_i hpow
    obtain ⟨m, -, hm⟩ := (isPowerOf2_iff a).mp hpow
    rw [hm, Nat.clog_pow 2 m (by decide), ← hm, word_self]
  · rename_i hpow
    set k := Nat.clog 2 a.toNat
    have hk31 : k ≤ 31 := Nat.clog_le_of_le_pow hle
    have hne : ∀ m, m ≤ 31 → a.toNat ≠ 2 ^ m := fun m hm h =>
      hpow ((isPowerOf2_iff a).mpr ⟨m, hm, h⟩)
    have hhi : a.toNat < 2 ^ k :=
      lt_of_le_of_ne (Nat.le_pow_clog (by decide) _) (hne k hk31)
    have hone : 1 < a.toNat := by
      have := hne 0 (by decide)
      omega
    have hlo : 2 ^ (k - 1) < a.toNat := Nat.pow_pred_clog_lt_self (by decide) hone
    have hkpos : 0 < k := Nat.clog_pos (by decide) hone
    have hdouble : 2 ^ k = 2 * 2 ^ (k - 1) := by
      rw [← Nat.pow_succ', Nat.succ_eq_add_one, Nat.sub_add_cancel hkpos]
    rw [positionLoop_eq k fuel a.toBitVec 0 hk31 (by omega)
      (by rw [UInt32.toNat_toBitVec]; omega) (by rwa [UInt32.toNat_toBitVec])]
    simp only [Option.map_some, UInt32.zero_add, Option.some.injEq]
    apply UInt32.toNat_inj.mp
    rw [UInt32.toNat_shiftLeft, word_toNat, word_toNat, Nat.mod_eq_of_lt (by omega : k < 2 ^ 32),
      Nat.mod_eq_of_lt (by omega : k < 32)]
    simp [Nat.shiftLeft_eq]

/-- Size 0 is no power of two, but its counter is 0 at once. -/
theorem roundupPowerOf2_zero (fuel : ℕ) (hfuel : 1 ≤ fuel) : roundupPowerOf2 fuel 0 = some 1 := by
  obtain ⟨fuel, rfl⟩ : ∃ f, fuel = f + 1 := ⟨fuel - 1, by omega⟩
  rfl

theorem roundupPowerOf2_of_le (a : UInt32) (hle : a.toNat ≤ 2 ^ 31) (fuel : ℕ)
    (hfuel : 32 ≤ fuel) : roundupPowerOf2 fuel a = some (word (2 ^ Nat.clog 2 a.toNat)) := by
  rcases Nat.eq_zero_or_pos a.toNat with hzero | hpos
  · obtain rfl : a = 0 := UInt32.toNat_inj.mp hzero
    rw [roundupPowerOf2_zero fuel (by omega), hzero, Nat.clog_zero_right]
    rfl
  · exact roundupPowerOf2_eq a hpos hle fuel hfuel

/-- A negative counter keeps its sign, so the loop never ends. -/
theorem positionLoop_negative (fuel : ℕ) (i : BitVec 32) (position : UInt32)
    (hi : i.msb = true) : positionLoop fuel i position = none := by
  induction fuel generalizing i position with
  | zero => rfl
  | succ fuel ih =>
      have hne : i ≠ 0 := by
        rintro rfl
        simp at hi
      rw [positionLoop, if_neg hne]
      exact ih _ _ (by rw [BitVec.msb_sshiftRight, hi])

/-- From `2 ^ 31 + 1` on no size is a power of two, and the counter starts negative. -/
theorem roundupPowerOf2_none (a : UInt32) (ha : 2 ^ 31 < a.toNat) (fuel : ℕ) :
    roundupPowerOf2 fuel a = none := by
  have hpow : ¬ isPowerOf2 a = true := by
    rw [isPowerOf2_iff]
    rintro ⟨m, hm, h⟩
    have : 2 ^ m ≤ 2 ^ 31 := Nat.pow_le_pow_right (by decide) hm
    omega
  have hmsb : a.toBitVec.msb = true := by
    rw [BitVec.msb_eq_true_iff_two_mul_ge, UInt32.toNat_toBitVec]
    omega
  rw [roundupPowerOf2, if_neg hpow, positionLoop_negative fuel _ _ hmsb, Option.map_none]

theorem positionLoop_stable (i : BitVec 32) (position : UInt32) :
    Stable fun fuel => positionLoop fuel i position := by
  intro fuel more q hle h
  induction fuel generalizing more i position with
  | zero => simp [positionLoop] at h
  | succ fuel ih =>
      obtain ⟨more, rfl⟩ : ∃ n, more = n + 1 := ⟨more - 1, by omega⟩
      simp only [positionLoop] at h ⊢
      split at h
      · rename_i hi
        rwa [if_pos hi]
      · rename_i hi
        rw [if_neg hi]
        exact ih _ _ (by omega) h

theorem roundupPowerOf2_stable (a : UInt32) : Stable fun fuel => roundupPowerOf2 fuel a := by
  unfold roundupPowerOf2
  split
  · exact fun _ _ _ _ h => h
  · exact (positionLoop_stable _ _).map _

/-- A size that is rounded up at all is at most `2 ^ 31`. -/
theorem roundupPowerOf2_eq_some {fuel : ℕ} {a s : UInt32} (h : roundupPowerOf2 fuel a = some s) :
    a.toNat ≤ 2 ^ 31 ∧ s = word (2 ^ Nat.clog 2 a.toNat) := by
  have hle : a.toNat ≤ 2 ^ 31 := by
    by_contra hgt
    simp [roundupPowerOf2_none a (by omega)] at h
  exact ⟨hle, (roundupPowerOf2_stable a).unique h (roundupPowerOf2_of_le a hle 32 le_rfl)⟩

theorem word_two_pow_toNat {bits : ℕ} (hbits : bits ≤ 31) : (word (2 ^ bits)).toNat = 2 ^ bits := by
  have hle : 2 ^ bits ≤ 2 ^ 31 := Nat.pow_le_pow_right (by decide) hbits
  rw [word_toNat, Nat.mod_eq_of_lt (hle.trans_lt (by decide))]

/-- The members that the constructor assigns for `2 ^ bits` slots. -/
theorem RingConfig.sized_of_bits {bits : ℕ} (hbits : bits ≤ 31) (behavior : BuffRingBehavior)
    (sp sc : Bool) :
    RingConfig.Sized
      ⟨word (2 ^ bits), word (2 ^ bits) - 1, word (2 ^ bits) - 1, behavior, sp, sc⟩ bits where
  bits_le := hbits
  size_eq := word_two_pow_toNat hbits
  mask_eq := mask_toNat (word_two_pow_toNat hbits)
  capacity_lt := by
    simp only [mask_toNat (word_two_pow_toNat hbits)]
    exact Nat.sub_one_lt_of_lt (Nat.two_pow_pos bits)

/-- A constructor that returns has built a ring of some power-of-two size. -/
theorem buffRing_sized {T : Type*} {fuel : ℕ} {size : UInt32} {behavior : BuffRingBehavior}
    {sp sc : Bool} {data : ℕ → T} {c : RingConfig} {m : RingMem T}
    (hring : buffRing fuel size behavior sp sc data = some (c, m)) :
    m = ⟨{}, {}, data⟩ ∧ ∃ bits, c.Sized bits := by
  unfold buffRing at hring
  rw [Option.map_eq_some_iff] at hring
  obtain ⟨s, hs, heq⟩ := hring
  obtain ⟨rfl, rfl⟩ := Prod.mk.inj heq
  obtain ⟨hle, rfl⟩ := roundupPowerOf2_eq_some hs
  exact ⟨rfl, _, RingConfig.sized_of_bits (Nat.clog_le_of_le_pow hle) behavior sp sc⟩

/-! ## Copy loops -/

theorem countLoop_eq_map (rounds i idx : ℕ) :
    countLoop rounds i idx = (List.range rounds).map fun j => (i + j, idx + j) := by
  induction rounds generalizing i idx with
  | zero => rfl
  | succ rounds ih =>
      rw [countLoop, ih, List.range_succ_eq_map]
      simp [Function.comp_def, Nat.add_assoc, Nat.add_comm 1]

theorem countLoop_append (r s i idx : ℕ) :
    countLoop r i idx ++ countLoop s (i + r) (idx + r) = countLoop (r + s) i idx := by
  simp [countLoop_eq_map, List.range_add, Function.comp_def, Nat.add_assoc]

theorem unrolledLoop_eq (rounds i idx : ℕ) :
    unrolledLoop rounds i idx = countLoop (4 * rounds) i idx := by
  induction rounds generalizing i idx with
  | zero => rfl
  | succ rounds ih =>
      rw [show 4 * (rounds + 1) = 4 * rounds + 1 + 1 + 1 + 1 by omega]
      simp only [unrolledLoop, countLoop, ih]

theorem switchTail_eq (rest i idx : ℕ) (h : rest < 4) :
    switchTail rest i idx = countLoop rest i idx := by
  interval_cases rest <;> rfl

theorem toNat_and_not_three (n : UInt32) : (n &&& ~~~3).toNat = 4 * (n.toNat / 4) := by
  have hmask : (~~~3 : UInt32).toNat = 2 ^ 32 - 4 := by decide
  have hn := n.toNat_lt
  rw [UInt32.toNat_and, hmask, show 4 * (n.toNat / 4) = 2 ^ 2 * (n.toNat / 2 ^ 2) by omega]
  apply Nat.eq_of_testBit_eq
  intro i
  rw [Nat.testBit_and, Nat.testBit_two_pow_mul, Nat.testBit_div_two_pow]
  by_cases hi : i < 32
  · have hbit : (2 ^ 32 - 4 : ℕ).testBit i = decide (2 ≤ i) := by
      interval_cases i <;> decide
    by_cases htwo : 2 ≤ i <;> rw [hbit] <;> simp [htwo]
  · have hhigh : n.toNat.testBit i = false :=
      Nat.testBit_lt_two_pow (hn.trans_le (Nat.pow_le_pow_right (by decide) (by omega)))
    simp [hhigh, Nat.sub_add_cancel (show 2 ≤ i by omega)]

theorem toNat_and_three (n : UInt32) : (n &&& 3).toNat = n.toNat % 4 := by
  rw [UInt32.toNat_and]
  exact Nat.and_two_pow_sub_one_eq_mod n.toNat 2

/-- A stretch that stays below the array end visits its slots modulo the size. -/
theorem countLoop_eq_slots {rounds i idx size : ℕ} (h : idx + rounds ≤ size) :
    countLoop rounds i idx = (List.range rounds).map fun j => (i + j, (idx + j) % size) := by
  rw [countLoop_eq_map]
  apply List.map_congr_left
  intro j hj
  have := List.mem_range.mp hj
  rw [Nat.mod_eq_of_lt (by omega : idx + j < size)]

theorem fastPath_eq (n : UInt32) (idx : ℕ) :
    unrolledLoop ((n &&& ~~~3).toNat / 4) 0 idx ++
      switchTail (n &&& 3).toNat (n &&& ~~~3).toNat (idx + (n &&& ~~~3).toNat) =
      countLoop n.toNat 0 idx := by
  have happ := countLoop_append (4 * (n.toNat / 4)) (n.toNat % 4) 0 idx
  rw [Nat.zero_add, Nat.div_add_mod] at happ
  rw [toNat_and_not_three, toNat_and_three, Nat.mul_div_cancel_left _ (by decide),
    unrolledLoop_eq, switchTail_eq _ _ _ (Nat.mod_lt _ (by decide)), happ]

/-- Items past the array end continue at slot 0. -/
theorem wrapPath_eq {idx n size : ℕ} (hidx : idx ≤ size) (hn : n ≤ size) (hwrap : size ≤ idx + n) :
    countLoop (size - idx) 0 idx ++ countLoop (n - (size - idx)) (size - idx) 0 =
      (List.range n).map fun i => (i, (idx + i) % size) := by
  obtain ⟨upper, rfl⟩ : ∃ u, size = idx + u := ⟨size - idx, by omega⟩
  obtain ⟨lower, rfl⟩ : ∃ l, n = upper + l := ⟨n - upper, by omega⟩
  rw [Nat.add_sub_cancel_left, Nat.add_sub_cancel_left, countLoop_eq_slots le_rfl,
    countLoop_eq_map, List.range_add, List.map_append]
  congr 1
  · simp
  · rw [List.map_map]
    apply List.map_congr_left
    intro i hi
    have := List.mem_range.mp hi
    have hturn : idx + (upper + i) = i + (idx + upper) := by omega
    simp only [Function.comp_apply, hturn, Nat.add_mod_right, Nat.zero_add]
    rw [Nat.mod_eq_of_lt (by omega : i < idx + upper)]

/-- Both paths of the copy macros visit slot `(head + i) mod size` for item `i`. -/
theorem ptrPairs_eq {c : RingConfig} {bits : ℕ} (hc : c.Sized bits) (k : ℕ) (n : UInt32)
    (hn : n.toNat < 2 ^ bits) :
    ptrPairs c (word k) n = (List.range n.toNat).map fun i => (i, (k + i) % 2 ^ bits) := by
  have hidx : (word k &&& c.mask).toNat = k % 2 ^ bits :=
    word_and_mask k bits (hc.bits_le.trans (by decide)) c.mask hc.mask_eq
  have hlt : k % 2 ^ bits < 2 ^ bits := Nat.mod_lt _ (Nat.two_pow_pos bits)
  have hsum : ((word k &&& c.mask) + n).toNat = k % 2 ^ bits + n.toNat := by
    have := hc.two_pow_le
    rw [UInt32.toNat_add, hidx]
    omega
  simp only [ptrPairs, UInt32.lt_iff_toNat_lt, hsum, hidx, hc.size_eq, fastPath_eq]
  split
  · rename_i hfast
    rw [countLoop_eq_slots hfast.le]
    simp [Nat.mod_add_mod]
  · rw [wrapPath_eq hlt.le hn.le (by omega)]
    simp [Nat.mod_add_mod]

end Restore.BuffRing
