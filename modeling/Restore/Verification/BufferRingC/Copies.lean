import Restore.Model.BufferRingC
import Restore.Verification.BuffRing.Sequential

/-! # The copy macros are modular copies

Both rings copy `n` items to and from the slots that follow `head`, modulo their size. -/

namespace Restore.BufferRingC

open Restore.BuffRing (RingConfig ptrPairs ptrPairs_eq enqueuePtrs_spec dequeuePtrs_spec)
open Restore.Counter

variable {T : Type*}

/-- The copies between a table and the slots go through `pairs` of an item and a slot, which are
the items in order, with the slots that follow `head`. -/
structure ModularCopies (size head n : ℕ) (pairs : List (ℕ × ℕ))
    (enqueue dequeue : (obj data : ℕ → T) → ℕ → T) : Prop where
  pairs_eq : pairs = (List.range n).map fun i => (i, (head + i) % size)
  slot_lt : ∀ p ∈ pairs, p.2 < size
  stored : ∀ obj data, ∀ i < n, enqueue obj data ((head + i) % size) = obj i
  unchanged : ∀ obj data s, (∀ i < n, s ≠ (head + i) % size) → enqueue obj data s = data s
  read : ∀ obj data, ∀ i < n, dequeue obj data i = data ((head + i) % size)
  unread : ∀ obj data i, n ≤ i → dequeue obj data i = obj i
  returned : ∀ obj obj' data, ∀ i < n, dequeue obj' (enqueue obj data) i = obj i

theorem modularCopies {bits : ℕ} (hbits : bits ≤ 31) (c : RingConfig)
    (hsize : c.size.toNat = 2 ^ bits) (hmask : c.mask = c.size - 1) (head n : UInt32)
    (hn : n.toNat ≤ 2 ^ bits - 1) :
    ModularCopies (2 ^ bits) head.toNat n.toNat (ptrPairs c head n)
      (fun (obj : ℕ → T) => BuffRing.enqueuePtrs c head obj n)
      (fun (obj : ℕ → T) => BuffRing.dequeuePtrs c head obj n) := by
  have hpos : 0 < 2 ^ bits := Nat.two_pow_pos bits
  have hmaskNat : (c.size - 1).toNat = 2 ^ bits - 1 := mask_toNat hsize
  have hlt : n.toNat < 2 ^ bits := by omega
  -- the macros do not look at the capacity
  have hsized : ({ c with capacity := c.mask } : RingConfig).Sized bits :=
    ⟨hbits, hsize, hmask ▸ hmaskNat, by
      rw [hmask, hmaskNat]
      omega⟩
  have hword : word head.toNat = head := UInt32.ofNat_toNat
  have hpairs := ptrPairs_eq hsized head.toNat n hlt
  have hstore (obj data : ℕ → T) := enqueuePtrs_spec hsized head.toNat obj n hlt data
  have hread (obj data : ℕ → T) := dequeuePtrs_spec hsized head.toNat obj n hlt data
  rw [hword] at hpairs
  simp only [hword] at hstore hread
  refine ⟨hpairs, ?_, fun obj data => (hstore obj data).1, fun obj data => (hstore obj data).2,
    ?_, ?_, ?_⟩
  · intro p hp
    obtain ⟨i, -, rfl⟩ := List.mem_map.mp (hpairs ▸ hp)
    exact Nat.mod_lt _ hpos
  · intro obj data i hi
    exact (congrFun (hread obj data) i).trans (if_pos hi)
  · intro obj data i hi
    exact (congrFun (hread obj data) i).trans (if_neg (Nat.not_lt.mpr hi))
  · intro obj obj' data i hi
    exact ((congrFun (hread obj' _) i).trans (if_pos hi)).trans ((hstore obj data).1 i hi)

/-- In both rings, for every power of two up to `2 ^ 31` slots, every head and every number of
items below the size, the macros copy to and from the slots that follow the head. -/
theorem ptrs_modularCopies {bits : ℕ} (hbits : bits ≤ 31) (head n : UInt32)
    (hn : n.toNat ≤ 2 ^ bits - 1) :
    (∀ c : RingConfig, c.size.toNat = 2 ^ bits → c.mask = c.size - 1 →
      ModularCopies (2 ^ bits) head.toNat n.toNat (ptrPairs c head n)
        (fun (obj : ℕ → T) => BuffRing.enqueuePtrs c head obj n)
        (fun (obj : ℕ → T) => BuffRing.dequeuePtrs c head obj n)) ∧
    ∀ r : BufferRing T, r.size.toNat = 2 ^ bits → r.mask = r.size - 1 →
      ModularCopies (2 ^ bits) head.toNat n.toNat
        (ptrPairs (r.config .ringQueueFixed isMp isMc) head n)
        (fun (obj data : ℕ → T) => enqueuePtrs { r with data } head obj n)
        (fun (obj data : ℕ → T) => dequeuePtrs { r with data } head obj n) :=
  ⟨fun c hsize hmask => modularCopies hbits c hsize hmask head n hn,
    fun r hsize hmask => modularCopies hbits (r.config .ringQueueFixed isMp isMc) hsize hmask
      head n hn⟩

/-- Five items from slot 6 of 8, past the end of the array and of the 32-bit head. -/
theorem ptrs_modularCopies_wrapping :
    ModularCopies 8 0xFFFFFFFE 5 [(0, 6), (1, 7), (2, 0), (3, 1), (4, 2)]
      (fun (obj : ℕ → ℕ) => BuffRing.enqueuePtrs ⟨8, 7, 7, .kRingQueueFixed, true, true⟩
        0xFFFFFFFE obj 5)
      (fun (obj : ℕ → ℕ) => BuffRing.dequeuePtrs ⟨8, 7, 7, .kRingQueueFixed, true, true⟩
        0xFFFFFFFE obj 5) :=
  (ptrs_modularCopies (T := ℕ) (by decide : 3 ≤ 31) 0xFFFFFFFE 5 (by decide)).1
    ⟨8, 7, 7, .kRingQueueFixed, true, true⟩ (by decide) (by decide)

end Restore.BufferRingC
