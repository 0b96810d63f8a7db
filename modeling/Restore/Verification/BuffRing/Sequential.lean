import Restore.Verification.BuffRing.Equations
import Restore.Model.RingMachine
import Restore.Shared.Fifo

/-! # `BuffRing` calls that do not overlap

One equation for each member function on a ring in which no call is in progress. -/

namespace Restore.BuffRing

open Restore.Counter

variable {T : Type*}

/-! ## Copies -/

@[simp] theorem length_batch (obj : ℕ → T) (n : ℕ) : (batch obj n).length = n := by
  simp [batch]

theorem take_batch (obj : ℕ → T) {k n : ℕ} (h : k ≤ n) : (batch obj n).take k = batch obj k := by
  simp [batch, ← List.map_take, List.take_range, Nat.min_eq_left h]

theorem enqueuePtrs_zero {c : RingConfig} {bits : ℕ} (hc : c.Sized bits) (k : ℕ) (obj : ℕ → T)
    (data : ℕ → T) : enqueuePtrs c (word k) obj 0 data = data := by
  rw [enqueuePtrs, ptrPairs_eq hc k 0 (Nat.two_pow_pos bits)]
  rfl

/-- Writing `n` items through distinct indices leaves item `i` at `slot i` and every
other index as it was. -/
theorem foldl_update_range (slot : ℕ → ℕ) (obj data : ℕ → T) (n : ℕ)
    (hinj : ∀ i j, i < j → j < n → slot i ≠ slot j) :
    let filled := ((List.range n).map fun i => (i, slot i)).foldl
      (fun ring p => Function.update ring p.2 (obj p.1)) data
    (∀ i, i < n → filled (slot i) = obj i) ∧
      ∀ s, (∀ i, i < n → s ≠ slot i) → filled s = data s := by
  induction n with
  | zero => simp
  | succ n ih =>
      obtain ⟨hin, hout⟩ := ih (fun i j hij hj => hinj i j hij (by omega))
      simp only [List.range_succ, List.map_append, List.foldl_append, List.map_cons,
        List.map_nil, List.foldl_cons, List.foldl_nil]
      constructor
      · intro i hi
        rcases Nat.lt_succ_iff_lt_or_eq.mp hi with hlt | rfl
        · rw [Function.update_of_ne (hinj i n hlt (Nat.lt_succ_self n)), hin i hlt]
        · rw [Function.update_self]
      · intro s hs
        rw [Function.update_of_ne (hs n (Nat.lt_succ_self n)),
          hout s (fun i hi => hs i (by omega))]

theorem enqueuePtrs_spec {c : RingConfig} {bits : ℕ} (hc : c.Sized bits) (k : ℕ) (obj : ℕ → T)
    (n : UInt32) (hn : n.toNat < 2 ^ bits) (data : ℕ → T) :
    (∀ i, i < n.toNat →
      enqueuePtrs c (word k) obj n data ((k + i) % 2 ^ bits) = obj i) ∧
      ∀ s, (∀ i, i < n.toNat → s ≠ (k + i) % 2 ^ bits) →
        enqueuePtrs c (word k) obj n data s = data s := by
  rw [enqueuePtrs, ptrPairs_eq hc k n hn]
  exact foldl_update_range (fun i => (k + i) % 2 ^ bits) obj data n.toNat
    (fun i j hij hj => slot_ne (by omega) (by omega) (by omega))

theorem dequeuePtrs_spec {c : RingConfig} {bits : ℕ} (hc : c.Sized bits) (k : ℕ) (obj : ℕ → T)
    (n : UInt32) (hn : n.toNat < 2 ^ bits) (data : ℕ → T) :
    dequeuePtrs c (word k) obj n data =
      fun i => if i < n.toNat then data ((k + i) % 2 ^ bits) else obj i := by
  rw [dequeuePtrs, ptrPairs_eq hc k n hn, List.foldl_map]
  induction n.toNat with
  | zero => simp
  | succ n ih =>
      rw [List.range_succ, List.foldl_append, ih]
      funext i
      rcases Nat.lt_trichotomy i n with hlt | rfl | hgt
      · simp [hlt, hlt.ne, Nat.lt_succ_of_lt hlt]
      · simp
      · simp [hgt.ne', Nat.not_lt.mpr hgt.le, Nat.not_lt.mpr (Nat.succ_le_of_lt hgt)]

/-! ## Room and stock -/

/-- How far a head may run ahead of the other side's tail. -/
def RingConfig.slack (c : RingConfig) : Side → ℕ
  | .prod => c.capacity.toNat
  | .cons => 0

def BuffRingBehavior.batching : BuffRingBehavior → Batching
  | .kRingQueueFixed => .allOrNone
  | .kRingQueueVariable => .upTo

/-- The count computed from a head and the other tail is exact as long as the head
has not overrun. -/
theorem entries_word (c : RingConfig) (σ : Side) {tail head : ℕ}
    (h : head ≤ tail + c.slack σ) :
    c.entries σ (word tail) (word head) = word (tail + c.slack σ - head) := by
  cases σ with
  | prod =>
      have hcap : c.capacity = word c.capacity.toNat := (word_self _).symm
      rw [RingConfig.entries, hcap, word_add, Nat.add_comm _ tail]
      exact word_sub h
  | cons => exact word_sub h

theorem clamp_toNat (c : RingConfig) (n entries : UInt32) :
    (c.clamp n entries).toNat = c.behavior.batching.moved n.toNat entries.toNat := by
  unfold RingConfig.clamp
  by_cases hlt : entries.toNat < n.toNat
  · rw [if_pos (UInt32.lt_iff_toNat_lt.mpr hlt)]
    cases hb : c.behavior with
    | kRingQueueFixed =>
        simp [BuffRingBehavior.batching, Batching.moved, Nat.not_le.mpr hlt]
    | kRingQueueVariable =>
        simp [BuffRingBehavior.batching, Batching.moved, hlt.le]
  · rw [if_neg (fun h => hlt (UInt32.lt_iff_toNat_lt.mp h))]
    exact (Batching.moved_of_le _ (Nat.le_of_not_lt hlt)).symm

/-- The count that a head move settles on. -/
def RingConfig.reach (c : RingConfig) (n : UInt32) (entries : ℕ) : ℕ :=
  c.behavior.batching.moved n.toNat entries

theorem reach_le_entries (c : RingConfig) (n : UInt32) (entries : ℕ) :
    c.reach n entries ≤ entries :=
  Batching.moved_le_limit _ _ _

theorem reach_le_request (c : RingConfig) (n : UInt32) (entries : ℕ) :
    c.reach n entries ≤ n.toNat :=
  Batching.moved_le_request _ _ _

theorem clamp_word (c : RingConfig) (n : UInt32) {entries : ℕ} (h : entries < 2 ^ 32) :
    c.clamp n (word entries) = word (c.reach n entries) := by
  have hn := n.toNat_lt
  have hle := reach_le_request c n entries
  apply UInt32.toNat_inj.mp
  rw [clamp_toNat, word_toNat, word_toNat, Nat.mod_eq_of_lt h]
  exact (Nat.mod_eq_of_lt (hle.trans_lt hn)).symm

/-! ## Calls on a quiet ring -/

theorem moveHead_eq (c : RingConfig) (σ : Side) (m : RingMem T) (n : UInt32) :
    let entries := c.entries σ (m.ht σ.other).tail (m.ht σ).head
    let k := c.clamp n entries
    moveHead c σ m n =
      some (m.setHead σ ((m.ht σ).head + k), ⟨k, (m.ht σ).head, (m.ht σ).head + k, entries⟩) := by
  intro entries k
  have hself : m.setHead σ (m.ht σ).head = m := by cases σ <;> rfl
  simp only [moveHead, RingMem.casHead, if_true]
  by_cases hk : k = 0
  · rw [if_pos hk, hk, UInt32.add_zero, hself]
  · rw [if_neg hk]
    split <;> rfl

/-- Alone, a head move settles in its first round. -/
theorem moveHead_alone (c : RingConfig) (σ : Side) (m : RingMem T) (n : UInt32)
    {head tail : ℕ} (hhead : (m.ht σ).head = word head)
    (htail : (m.ht σ.other).tail = word tail) (hle : head ≤ tail + c.slack σ)
    (hlt : tail + c.slack σ - head < 2 ^ 32) :
    let k := c.reach n (tail + c.slack σ - head)
    moveHead c σ m n =
      some (m.setHead σ (word (head + k)),
        ⟨word k, word head, word (head + k), word (tail + c.slack σ - head)⟩) := by
  intro k
  rw [moveHead_eq, hhead, htail, entries_word c σ hle, clamp_word c n hlt, ← word_add]

/-- Alone, a call finds the tail where its head move started. -/
theorem updateTail_alone (m : RingMem T) (σ : Side) (oldVal newVal : UInt32) (single : Bool)
    (h : (m.ht σ).tail = oldVal) :
    updateTail m σ oldVal newVal single = some (m.setTail σ newVal) := by
  simp [updateTail, h]

theorem doEnqueue_alone {c : RingConfig} {bits : ℕ} (hc : c.Sized bits) (m : RingMem T)
    (obj : ℕ → T) (n : UInt32) {head tail : ℕ} (hprod : m.prod = ⟨word head, word head⟩)
    (htail : m.cons.tail = word tail) (hle : head ≤ tail + c.capacity.toNat)
    (hlt : tail + c.capacity.toNat - head < 2 ^ 32) :
    let k := c.reach n (tail + c.capacity.toNat - head)
    doEnqueue c m obj n =
      some ({ m with
          prod := ⟨word (head + k), word (head + k)⟩
          data := enqueuePtrs c (word head) obj (word k) m.data },
        word k, word (tail + c.capacity.toNat - head - k)) := by
  intro k
  have hk := reach_le_entries c n (tail + c.capacity.toNat - head)
  have hmove := moveHead_alone c .prod m n (by rw [RingMem.ht, hprod]) htail hle hlt
  simp only [RingConfig.slack] at hmove
  simp only [doEnqueue, moveProdHead, hmove, Option.bind_eq_bind, Option.bind_some,
    word_sub hk]
  split
  · rename_i hzero
    have hz : k = 0 := (eq_of_word_eq (Nat.zero_le k) (by omega) (Eq.symm hzero)).symm
    simp only [k] at hz
    simp only [hz, Nat.add_zero, RingMem.setHead, hprod, k]
    rw [show word 0 = 0 from rfl, enqueuePtrs_zero hc]
    rfl
  · rw [updateTail_alone _ _ _ _ _ (by simp [RingMem.setHead, RingMem.ht, hprod])]
    rfl

theorem doDequeue_alone {c : RingConfig} {bits : ℕ} (hc : c.Sized bits) (m : RingMem T)
    (obj : ℕ → T) (n : UInt32) {head tail : ℕ} (hcons : m.cons = ⟨word head, word head⟩)
    (htail : m.prod.tail = word tail) (hle : head ≤ tail) (hlt : tail - head < 2 ^ 32) :
    let k := c.reach n (tail - head)
    doDequeue c m obj n =
      some ({ m with cons := ⟨word (head + k), word (head + k)⟩ },
        dequeuePtrs c (word head) obj (word k) m.data, word k, word (tail - head - k)) := by
  intro k
  have hk := reach_le_entries c n (tail - head)
  have hmove := moveHead_alone c .cons m n (by rw [RingMem.ht, hcons]) htail hle hlt
  simp only [RingConfig.slack, Nat.add_zero] at hmove
  simp only [doDequeue, moveConsumerHead, hmove, Option.bind_eq_bind, Option.bind_some,
    word_sub hk]
  split
  · rename_i hzero
    have hz : k = 0 := (eq_of_word_eq (Nat.zero_le k) (by omega) (Eq.symm hzero)).symm
    simp only [k] at hz
    simp only [hz, Nat.add_zero, RingMem.setHead, hcons, k]
    rw [show word 0 = word 0 from rfl, dequeuePtrs_spec hc head obj (word 0) (Nat.two_pow_pos bits)]
    simp
  · rw [updateTail_alone _ _ _ _ _ (by simp [RingMem.setHead, RingMem.ht, hcons])]
    rfl

theorem countOf_word {c : RingConfig} {bits : ℕ} (hc : c.Sized bits) {head tail : ℕ}
    (hle : head ≤ tail) (hcap : tail - head ≤ c.capacity.toNat) :
    c.countOf (word tail) (word head) = word (tail - head) := by
  have hlt := hc.capacity_lt
  have htwo := hc.two_pow_le
  have hmask : ((word tail - word head) &&& c.mask) = word (tail - head) := by
    apply UInt32.toNat_inj.mp
    rw [word_sub hle, word_and_mask _ bits (hc.bits_le.trans (by decide)) c.mask hc.mask_eq,
      word_toNat, Nat.mod_eq_of_lt (by omega), Nat.mod_eq_of_lt (by omega)]
  unfold RingConfig.countOf
  simp only [hmask]
  rw [if_neg]
  rw [gt_iff_lt, UInt32.lt_iff_toNat_lt, word_toNat, Nat.mod_eq_of_lt (by omega)]
  omega

/-- The occupancy that the queries see. -/
theorem ringCount_alone {c : RingConfig} {bits : ℕ} (hc : c.Sized bits) (m : RingMem T)
    {head tail : ℕ} (hcons : m.cons.tail = word head) (hprod : m.prod.tail = word tail)
    (hle : head ≤ tail) (hcap : tail - head ≤ c.capacity.toNat) :
    ringCount c m = word (tail - head) := by
  rw [ringCount, hcons, hprod]
  exact countOf_word hc hle hcap

end Restore.BuffRing
